import QueryEngine.Scan.Batches
import QueryEngine.Library.SelfDelimiting

/-!
# Scan/KeyColumns — a key read at the type a chunk stores it

A key component is an integer, a text or a path of item indices.  `KeyValue` is what a component
*is*, whatever width either side wrote it at: an integer is its value widened to 64 bits by its own
sign, and a path is its elements so widened.  `appendTo` is how a component is written into a key;
`appendTo_eq` says that it writes the component and nothing else, and `selfDelimiting_bytes` that
components of one kind, written one after another, are told apart.
-/

open Numerals

namespace QueryEngine

/-! ## Components -/

/-- The kinds of key component. -/
inductive KeyKind
  | int | text | path
  deriving DecidableEq, Repr

/-- A key component. -/
inductive KeyValue
  | int (key : BitVec 64)
  | text (text : Text)
  | path (keys : List (BitVec 64))
  deriving DecidableEq

namespace KeyValue

/-- The kind of a key value. -/
def kind : KeyValue → KeyKind
  | int _ => .int
  | text _ => .text
  | path _ => .path

/-- Whether the component's length can be written in the key's 32 bits. -/
def Fits : KeyValue → Prop
  | path keys => keys.length < 2 ^ 32
  | _ => True

/-- The component as a key writes it. -/
def bytes : KeyValue → Bytes
  | int key => wordLe key
  | text t => leBytes 4 t.bytes.length ++ t.bytes
  | path keys => leBytes 4 keys.length ++ keys.flatMap wordLe

/-- Components a key can hold side by side in one column. -/
def Alike (a b : KeyValue) : Prop := a.kind = b.kind ∧ a.Fits ∧ b.Fits

/-- **Components of one kind, one after another, are told apart.** -/
theorem selfDelimiting_bytes : SelfDelimiting Alike bytes := by
  rintro (k | t | ks) (l | u | ls) x y ⟨hkind, ha, hb⟩ e
  case int.int =>
    obtain ⟨hkey, hrest⟩ := List.append_inj e (by simp [bytes])
    exact ⟨by rw [wordLe_injective hkey], hrest⟩
  case text.text =>
    simp only [bytes, List.append_assoc] at e
    obtain ⟨hlen, e⟩ := lengthHeader t.length_lt u.length_lt e
    obtain ⟨htext, hrest⟩ := List.append_inj e hlen
    exact ⟨by rw [Text.ext htext], hrest⟩
  case path.path =>
    simp only [bytes, List.append_assoc] at e
    obtain ⟨hlen, e⟩ := lengthHeader ha hb e
    obtain ⟨hkeys, hrest⟩ := List.append_inj e (by simp [length_flatMap_word length_wordLe, hlen])
    exact ⟨by rw [flatMap_word_injective length_wordLe wordLe_injective hkeys], hrest⟩
  all_goals exact absurd hkind (by simp [kind])

end KeyValue

/-! ## Columns -/

/-- The text a column's rows hold, or nothing when the column does not hold text. -/
def StringColumn.resolve : Column → Option (List (Slot Text))
  | .scalar (.text _) rows => some rows
  | _ => none

/-- Whether a column holds integers is said by its type. -/
theorem IntColumn.isSome_resolve_congr {a b : Column} (h : a.dataType = b.dataType) :
    (resolve a).isSome = (resolve b).isSome := by
  rcases a with ⟨_ | _ | _ | _ | _, _⟩ | _ | _ <;> rcases b with ⟨_ | _ | _ | _ | _, _⟩ | _ | _ <;>
    simp_all [resolve, Column.dataType]

/-- Whether a column holds texts is said by its type. -/
theorem StringColumn.isSome_resolve_congr {a b : Column} (h : a.dataType = b.dataType) :
    (resolve a).isSome = (resolve b).isSome := by
  rcases a with ⟨_ | _ | _ | _ | _, _⟩ | _ | _ <;> rcases b with ⟨_ | _ | _ | _ | _, _⟩ | _ | _ <;>
    simp_all [resolve, Column.dataType]

/-- The join keys of the elements of each row's list; nothing when the elements are not integers. -/
def elementKeys : (item : ScalarType) → List (Slot (List (Slot item.Value))) →
    Option (List (List (BitVec 64)))
  | .int t, rows => some (rows.map fun r => r.value.map fun s => storedKey (t.value s.value))
  | _, _ => none

/-- A typed key column.  A list whose elements are not integers gives no row a key. -/
inductive TypedKeyColumn
  | int (ints : IntColumn)
  | str (rows : List (Slot Text))
  | list (valid : List Bool) (elements : Option (List (List (BitVec 64))))

namespace TypedKeyColumn

/-- A column that a key can be read of. -/
def resolve (col : Column) : Option TypedKeyColumn :=
  match IntColumn.resolve col with
  | some ints => some (.int ints)
  | none =>
    match StringColumn.resolve col with
    | some rows => some (.str rows)
    | none =>
      match col with
      | .list false item rows => some (.list (rows.map Slot.valid) (elementKeys item rows))
      | _ => none

/-- A column resolved as integers is an integer column. -/
theorem resolve_int {col : Column} {ints : IntColumn} (h : resolve col = some (.int ints)) :
    IntColumn.resolve col = some ints := by
  unfold resolve at h
  split at h
  · next ints' hints =>
    obtain rfl : ints' = ints := by simpa using h
    exact hints
  · split at h
    · exact absurd h (by simp)
    · split at h <;> exact absurd h (by simp)

/-- A row outside the column counts as null. -/
def isNull : TypedKeyColumn → ℕ → Bool
  | int ints, row => (ints.slots[row]?).all fun s => !s.valid
  | str rows, row => (rows[row]?).all fun s => !s.valid
  | list valid _, row => (valid[row]?).all fun v => !v

/-- What the column writes for a row, or nothing when the row has no value. -/
def appendTo (col : TypedKeyColumn) (row : ℕ) : Option Bytes :=
  if col.isNull row then none
  else
    match col with
    | int ints => (ints.joinKeys[row]?).map wordLe
    | str rows => (rows[row]?).map fun s => leBytes 4 s.value.bytes.length ++ s.value.bytes
    | list _ none => none
    | list _ (some elements) =>
      (elements[row]?).map fun keys => leBytes 4 keys.length ++ keys.flatMap wordLe

/-- Whether the column holds integers. -/
def isInteger : TypedKeyColumn → Bool
  | int _ => true
  | _ => false

end TypedKeyColumn

namespace Column

/-- The kind of key component a column holds, if it holds any. -/
def keyKind : Column → Option KeyKind
  | scalar (.int _) _ => some .int
  | scalar (.text _) _ => some .text
  | list false (.int _) _ => some .path
  | _ => none

/-- **A row's key component.**  A null has none; a null element of a path is read as the value its
slot holds. -/
def keyValue : Column → ℕ → Option KeyValue
  | scalar (.int t) rows, row =>
    ((rows[row]?).bind Slot.get?).map fun v => .int (storedKey (t.value v))
  | scalar (.text _) rows, row => ((rows[row]?).bind Slot.get?).map .text
  | list false (.int t) rows, row => ((rows[row]?).bind Slot.get?).map fun elements =>
    .path (elements.map fun s => storedKey (t.value s.value))
  | _, _ => none

/-- A row's list of integers, a null element told apart from every value. -/
def elementsAt : Column → ℕ → Option (List (Option (BitVec 64)))
  | list _ (.int t) rows, row => ((rows[row]?).bind Slot.get?).map fun elements =>
    elements.map fun s => s.get?.map fun v => storedKey (t.value v)
  | _, _ => none

theorem kind_keyValue {c : Column} {row : ℕ} {v : KeyValue} (h : c.keyValue row = some v) :
    c.keyKind = some v.kind := by
  rcases c with ⟨_ | _ | _ | _ | _, rows⟩ | ⟨_ | _, _ | _ | _ | _ | _, rows⟩ | _
  case scalar.int | scalar.text | list.false.int =>
    obtain ⟨_, _, rfl⟩ := Option.map_eq_some_iff.mp h
    rfl
  all_goals exact absurd h (by simp [keyValue])

/-- A component a batch's column holds can be written in a key. -/
theorem fits_keyValue {c : Column} (hc : c.OffsetsFit) {row : ℕ} {v : KeyValue}
    (h : c.keyValue row = some v) : v.Fits := by
  rcases c with ⟨_ | _ | _ | _ | _, rows⟩ | ⟨_ | _, _ | _ | _ | _ | _, rows⟩ | _
  case scalar.int | scalar.text =>
    obtain ⟨_, _, rfl⟩ := Option.map_eq_some_iff.mp h
    trivial
  case list.false.int =>
    obtain ⟨elements, hget, rfl⟩ := Option.map_eq_some_iff.mp h
    obtain ⟨slot, hslot, hval⟩ := Option.bind_eq_some_iff.mp hget
    obtain ⟨-, rfl⟩ := Slot.get?_eq_some_iff.mp hval
    have hle := List.single_le_sum (fun _ _ => Nat.zero_le _) _
      (List.mem_map_of_mem (f := fun r => r.value.length) (List.mem_of_getElem? hslot))
    have hsum : (rows.map fun r => r.value.length).sum < 2 ^ 31 := hc
    change List.length _ < 2 ^ 32
    rw [List.length_map]
    omega
  all_goals exact absurd h (by simp [keyValue])

end Column

/-- A slot that is there has a value exactly when it is valid. -/
theorem bind_get? {α : Type} (s? : Option (Slot α)) :
    s?.bind Slot.get? = if s?.all fun s => !s.valid then none else s?.map Slot.value := by
  rcases s? with _ | ⟨value, _ | _⟩ <;> rfl

/-- **A column writes a row's component, and nothing for a row without one.** -/
theorem resolve_appendTo (c : Column) (row : ℕ) :
    ((TypedKeyColumn.resolve c).bind fun col => col.appendTo row) =
      (c.keyValue row).map KeyValue.bytes := by
  rcases c with ⟨_ | _ | _ | _ | _, rows⟩ | ⟨_ | _, _ | _ | _ | _ | _, rows⟩ | _
  case scalar.int t =>
    change (if (rows[row]?).all (fun s => !s.valid) then none
      else ((rows.map fun s => storedKey (t.value s.value))[row]?).map wordLe) = _
    simp only [Column.keyValue, bind_get?]
    split <;> simp [KeyValue.bytes, Function.comp_def]
  case scalar.text =>
    change (if (rows[row]?).all (fun s => !s.valid) then none
      else (rows[row]?).map fun s => leBytes 4 s.value.bytes.length ++ s.value.bytes) = _
    simp only [Column.keyValue, bind_get?]
    split <;> simp [KeyValue.bytes, Function.comp_def]
  case list.false.int t =>
    change (if ((rows.map Slot.valid)[row]?).all (fun v => !v) then none
      else ((rows.map fun r => r.value.map fun s => storedKey (t.value s.value))[row]?).map
        fun keys => leBytes 4 keys.length ++ keys.flatMap wordLe) = _
    simp only [Column.keyValue, bind_get?, List.getElem?_map, Option.all_map]
    split <;> simp_all [KeyValue.bytes, Function.comp_def]
  case list.false.boolean | list.false.text | list.false.bytes | list.false.other =>
    change (if _ then none else none) = none
    exact ite_self none
  all_goals rfl

/-! ## Batches -/

/-- The key columns of a batch, each that can be read. -/
def typedKeyColumns (batch : RecordBatch) (names : List String) : List (Option TypedKeyColumn) :=
  names.map fun name => (batch.columnByName name).bind TypedKeyColumn.resolve

/-- The bytes of a row's key, or nothing when a component is missing. -/
def keyBytes (cols : List (Option TypedKeyColumn)) (row : ℕ) : Option Bytes :=
  (cols.mapM fun col? => Option.bind col? fun col => col.appendTo row).map List.flatten

/-- **A row's key**: its components, column by column.  A row without one of them has no key. -/
def RecordBatch.keyTuple (batch : RecordBatch) (names : List String) (row : ℕ) :
    Option (List KeyValue) :=
  names.mapM fun name => (batch.columnByName name).bind fun col => col.keyValue row

/-- **The bytes of a key are its components', one after another.** -/
theorem keyBytes_eq (batch : RecordBatch) (names : List String) (row : ℕ) :
    keyBytes (typedKeyColumns batch names) row =
      (batch.keyTuple names row).map fun tuple => tuple.flatMap KeyValue.bytes := by
  have hcol (name : String) :
      (Option.bind ((batch.columnByName name).bind TypedKeyColumn.resolve)
        fun col => col.appendTo row) =
      ((batch.columnByName name).bind fun col => col.keyValue row).map KeyValue.bytes := by
    cases batch.columnByName name with
    | none => rfl
    | some c => exact resolve_appendTo c row
  unfold keyBytes typedKeyColumns RecordBatch.keyTuple
  rw [List.mapM_map]
  simp only [Function.comp_def, hcol]
  rw [Fallible.mapM_map]
  cases names.mapM fun name => (batch.columnByName name).bind fun col => col.keyValue row with
  | none => rfl
  | some tuple => simp [List.flatMap]

/-- Whether every batch with rows holds every key column at a type a key is read from, so that a row
without a key is a row with a null in it. -/
def keysReadable (batches : List RecordBatch) (names : List String) : Bool :=
  let readable (batch : RecordBatch) (name : String) : Bool :=
    match (batch.columnByName name).bind TypedKeyColumn.resolve with
    | some (.list _ elements) => elements.isSome
    | some _ => true
    | none => false
  (batches.filter fun batch => decide (0 < batch.numRows)).all fun batch =>
    names.all fun name => readable batch name

/-- Whether each row of a batch holds a value in every key column there is. -/
def completeKeys (batch : RecordBatch) (names : List String) : List Bool :=
  (List.range batch.numRows).map fun row =>
    (names.filterMap batch.columnByName).all fun col => !col.logicalNull row

/-- The join keys of a batch's two integer key columns, for each row that has both; nothing when they
are not two integer columns. -/
def pairKeys (batch : RecordBatch) (columns : List String) :
    Option (List (Option (BitVec 64 × BitVec 64))) :=
  match columns with
  | [first, second] =>
    match (batch.columnByName first).bind IntColumn.resolve,
        (batch.columnByName second).bind IntColumn.resolve with
    | some first, some second => some <|
      List.zipWith (fun a b => if a.valid && b.valid then
        some (storedKey (first.type.value a.value), storedKey (second.type.value b.value)) else none)
        first.slots second.slots
    | _, _ => none
  | _ => none

/-! ## What the batch's helpers read -/

/-- An integer column's component is its row's key. -/
theorem IntColumn.keyValue_of_resolve {c : Column} {ints : IntColumn}
    (h : IntColumn.resolve c = some ints) (row : ℕ) :
    c.keyValue row = ((ints.slots[row]?).bind Slot.get?).map fun v =>
      .int (storedKey (ints.type.value v)) := by
  rcases c with ⟨_ | _ | _ | _ | _, rows⟩ | _ | _
  case scalar.int =>
    obtain rfl := Option.some.inj h
    rfl
  all_goals exact absurd h (by simp [IntColumn.resolve])

theorem IntColumn.length_slots {c : Column} {ints : IntColumn}
    (h : IntColumn.resolve c = some ints) : ints.slots.length = c.len := by
  rcases c with ⟨_ | _ | _ | _ | _, rows⟩ | _ | _
  case scalar.int =>
    obtain rfl := Option.some.inj h
    rfl
  all_goals exact absurd h (by simp [IntColumn.resolve])

/-- **Pairs are the keys of two integer columns**, row by row. -/
theorem keyTuple_of_pairKeys {batch : RecordBatch} {names : List String}
    {pairs : List (Option (BitVec 64 × BitVec 64))} (h : pairKeys batch names = some pairs)
    (row : ℕ) :
    batch.keyTuple names row = (pairs[row]?).join.map fun p => [.int p.1, .int p.2] := by
  unfold pairKeys at h
  split at h
  case h_2 => exact absurd h (by simp)
  case h_1 first second =>
    split at h
    case h_2 => exact absurd h (by simp)
    case h_1 ca cb ha hb =>
      obtain rfl := Option.some.inj h
      obtain ⟨a, hacol, hares⟩ := Option.bind_eq_some_iff.mp ha
      obtain ⟨b, hbcol, hbres⟩ := Option.bind_eq_some_iff.mp hb
      simp only [RecordBatch.keyTuple, List.mapM_cons, List.mapM_nil, hacol, hbcol,
        Option.bind_some, IntColumn.keyValue_of_resolve hares, IntColumn.keyValue_of_resolve hbres,
        List.getElem?_zipWith]
      rcases ca.slots[row]? with _ | ⟨x, _ | _⟩ <;> rcases cb.slots[row]? with _ | ⟨y, _ | _⟩ <;> rfl

theorem length_pairKeys {batch : RecordBatch} {names : List String}
    {pairs : List (Option (BitVec 64 × BitVec 64))} (h : pairKeys batch names = some pairs) :
    pairs.length = batch.numRows := by
  unfold pairKeys at h
  split at h
  case h_2 => exact absurd h (by simp)
  case h_1 first second =>
    split at h
    case h_2 => exact absurd h (by simp)
    case h_1 ca cb ha hb =>
      obtain rfl := Option.some.inj h
      obtain ⟨a, hacol, hares⟩ := Option.bind_eq_some_iff.mp ha
      obtain ⟨b, hbcol, hbres⟩ := Option.bind_eq_some_iff.mp hb
      rw [List.length_zipWith, IntColumn.length_slots hares, IntColumn.length_slots hbres,
        batch.len_columnByName hacol, batch.len_columnByName hbcol, min_self]

/-! ## Batches whose keys are of given kinds -/

/-- The key columns of a batch hold components of these kinds, in order. -/
def RecordBatch.KeyedAt (batch : RecordBatch) (kinds : List KeyKind) (names : List String) : Prop :=
  List.Forall₂ (fun kind name => (batch.columnByName name).bind Column.keyKind = some kind) kinds names

namespace RecordBatch.KeyedAt

variable {batch : RecordBatch} {kinds : List KeyKind} {names : List String}

/-- A key's components are of the columns' kinds. -/
theorem keyTuple (h : batch.KeyedAt kinds names) {row : ℕ} {tuple : List KeyValue}
    (ht : batch.keyTuple names row = some tuple) :
    List.Forall₂ (fun kind v => v.kind = kind ∧ v.Fits) kinds tuple := by
  have hcols := Fallible.mapM_eq_some.mp ht
  induction h generalizing tuple with
  | nil =>
    cases hcols
    exact .nil
  | cons hkind _ ih =>
    rcases hcols with _ | ⟨hv, hrest⟩
    refine .cons ?_ (ih (Fallible.mapM_eq_some.mpr hrest) hrest)
    obtain ⟨c, hc, hck⟩ := Option.bind_eq_some_iff.mp hkind
    rw [hc, Option.bind_some] at hv
    have hkv := Column.kind_keyValue hv
    rw [hck] at hkv
    exact ⟨(Option.some.inj hkv).symm, Column.fits_keyValue (offsets_columnByName hc) hv⟩

end RecordBatch.KeyedAt

/-- Keys of the same kinds are alike, component by component. -/
theorem alike_of_kinds {kinds : List KeyKind} {s t : List KeyValue}
    (hs : List.Forall₂ (fun kind v => v.kind = kind ∧ v.Fits) kinds s)
    (ht : List.Forall₂ (fun kind v => v.kind = kind ∧ v.Fits) kinds t) :
    List.Forall₂ KeyValue.Alike s t := by
  induction hs generalizing t with
  | nil =>
    cases ht
    exact .nil
  | cons hv _ ih =>
    rcases ht with _ | ⟨hw, hrest⟩
    exact .cons ⟨hv.1.trans hw.1.symm, hv.2, hw.2⟩ (ih hrest)

/-- **The bytes of keys of the same kinds tell the keys apart**, whichever batches hold them. -/
theorem keyBytes_injective {kinds : List KeyKind} {b c : RecordBatch} {left right : List String}
    (hb : b.KeyedAt kinds left) (hc : c.KeyedAt kinds right) {i j : ℕ} {s t : List KeyValue}
    (hs : b.keyTuple left i = some s) (ht : c.keyTuple right j = some t) :
    s.flatMap KeyValue.bytes = t.flatMap KeyValue.bytes ↔ s = t := by
  constructor
  · exact KeyValue.selfDelimiting_bytes.flatMap_injective
      (alike_of_kinds (hb.keyTuple hs) (hc.keyTuple ht))
  · rintro rfl
    rfl

/-! ## Key columns, one more and one at a time -/

namespace Column

/-- A column of integer components is an integer column. -/
theorem resolve_of_keyKind_int {c : Column} (h : c.keyKind = some .int) :
    ∃ ints, IntColumn.resolve c = some ints := by
  rcases c with ⟨_ | _ | _ | _ | _, rows⟩ | ⟨_ | _, _ | _ | _ | _ | _, rows⟩ | _
  case scalar.int t => exact ⟨⟨t, rows⟩, rfl⟩
  all_goals exact absurd h (by simp [keyKind])

/-- An integer column holds integer components. -/
theorem keyKind_of_resolve {c : Column} {ints : IntColumn} (h : IntColumn.resolve c = some ints) :
    c.keyKind = some .int := by
  rcases c with ⟨_ | _ | _ | _ | _, rows⟩ | _ | _
  case scalar.int => rfl
  all_goals exact absurd h (by simp [IntColumn.resolve])

/-- A row of a key column is null exactly when it has no component. -/
theorem logicalNull_eq {c : Column} {kind : KeyKind} (h : c.keyKind = some kind) (row : ℕ) :
    c.logicalNull row = (c.keyValue row).isNone := by
  rcases c with ⟨_ | _ | _ | _ | _, rows⟩ | ⟨_ | _, _ | _ | _ | _ | _, rows⟩ | _
  case scalar.int | scalar.text | list.false.int =>
    simp only [logicalNull, cells, keyValue, List.getElem?_map]
    rcases rows[row]? with _ | ⟨value, _ | _⟩ <;> rfl
  all_goals exact absurd h (by simp [keyKind])

end Column

namespace RecordBatch

variable {batch : RecordBatch} {kinds : List KeyKind} {names : List String}

/-- The key of some columns and one more. -/
theorem keyTuple_concat (names : List String) (name : String) (row : ℕ) :
    batch.keyTuple (names ++ [name]) row = (batch.keyTuple names row).bind fun tuple =>
      ((batch.columnByName name).bind fun col => col.keyValue row).map fun v => tuple ++ [v] := by
  unfold keyTuple
  rw [List.mapM_append, List.mapM_cons, List.mapM_nil]
  cases names.mapM fun name => (batch.columnByName name).bind fun col => col.keyValue row with
  | none => rfl
  | some tuple => cases (batch.columnByName name).bind fun col => col.keyValue row <;> rfl

/-- **A row has a key exactly when none of its key columns is null.** -/
theorem KeyedAt.isSome_keyTuple (h : batch.KeyedAt kinds names) (row : ℕ) :
    (batch.keyTuple names row).isSome =
      (names.filterMap batch.columnByName).all fun col => !col.logicalNull row := by
  rw [RecordBatch.keyTuple, Fallible.isSome_mapM]
  induction h with
  | nil => rfl
  | @cons kind name _ names hkind _ ih =>
    obtain ⟨c, hc, hck⟩ := Option.bind_eq_some_iff.mp hkind
    rw [List.all_cons, ih, List.filterMap_cons, hc, Option.bind_some, List.all_cons,
      Column.logicalNull_eq hck, Option.not_isNone]

/-- Complete keys are those of the rows that have one. -/
theorem KeyedAt.completeKeys_eq (h : batch.KeyedAt kinds names) :
    completeKeys batch names =
      (List.range batch.numRows).map fun row => (batch.keyTuple names row).isSome :=
  List.map_congr_left fun row _ => (h.isSome_keyTuple row).symm

/-- Two columns of integers are read as pairs. -/
theorem KeyedAt.pairKeys (h : batch.KeyedAt [.int, .int] names) :
    ∃ pairs, QueryEngine.pairKeys batch names = some pairs := by
  rcases h with _ | ⟨ha, _ | ⟨hb, ⟨⟩⟩⟩
  obtain ⟨a, hacol, hak⟩ := Option.bind_eq_some_iff.mp ha
  obtain ⟨b, hbcol, hbk⟩ := Option.bind_eq_some_iff.mp hb
  obtain ⟨first, hfirst⟩ := Column.resolve_of_keyKind_int hak
  obtain ⟨second, hsecond⟩ := Column.resolve_of_keyKind_int hbk
  simp only [QueryEngine.pairKeys, hacol, hbcol, Option.bind_some, hfirst, hsecond]
  exact ⟨_, rfl⟩

end RecordBatch

end QueryEngine
