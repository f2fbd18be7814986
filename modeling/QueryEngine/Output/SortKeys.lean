import QueryEngine.Library.CountingSort
import QueryEngine.Library.Numerals
import QueryEngine.Library.OrderKeys
import QueryEngine.Output.RowOrder

/-!
# Output/SortKeys — the keys two rows compare by

A source's integer keys, with at most a trailing path of integers, are prepared once: read at their stored
types, written as one word a row when they fit one, or as bytes when their paths are deep.  Every form sorts
rows as comparing them column by column does, a null key as what its slot holds (`sort_forms_agree`).
-/

open Dedup OrderKeys Numerals

namespace QueryEngine

/-! ## Numbers as bytes -/

theorem order_byte {m n : ℕ} (hm : m < 256) (hn : n < 256) :
    order (UInt8.ofNat m) (UInt8.ofNat n) = cmp m n := by
  have h {k : ℕ} (hk : k < 256) : (UInt8.ofNat k).toNat = k := by
    rw [UInt8.toNat_ofNat', Nat.mod_eq_of_lt hk]
  rw [order_eq_cmp]
  simp only [cmp, cmpUsing, UInt8.lt_iff_toNat_lt, h hm, h hn]

theorem ofNat_mod (n : ℕ) : UInt8.ofNat (n % 256) = UInt8.ofNat n := by
  refine UInt8.toNat_inj.mp ?_
  rw [UInt8.toNat_ofNat', UInt8.toNat_ofNat', Nat.mod_mod]

/-- **Big-endian bytes order as the numbers do.** -/
theorem order_beBytes : ∀ {k m n : ℕ}, m < 256 ^ k → n < 256 ^ k → order (beBytes k m) (beBytes k n) = cmp m n
  | 0, m, n, hm, hn => by
    obtain rfl : m = 0 := by simpa using hm
    obtain rfl : n = 0 := by simpa using hn
    rw [order_self, cmp_self_eq_eq]
  | k + 1, m, n, hm, hn => by
    have hdiv {x : ℕ} (hx : x < 256 ^ (k + 1)) : x / 256 < 256 ^ k := by
      rw [pow_succ] at hx
      exact Nat.div_lt_of_lt_mul (by rwa [Nat.mul_comm])
    have hbe (x : ℕ) : beBytes (k + 1) x = beBytes k (x / 256) ++ [UInt8.ofNat (x % 256)] := by
      rw [beBytes, leBytes, List.reverse_cons, ofNat_mod]
      rfl
    rw [hbe, hbe, order_append (by simp), order_beBytes (hdiv hm) (hdiv hn), order_cons, order_self,
      Ordering.then_eq, order_byte (Nat.mod_lt _ (by decide)) (Nat.mod_lt _ (by decide)),
      ← cmp_mul_add (Nat.mod_lt m (by decide : 0 < 256)) (Nat.mod_lt n (by decide)), Nat.div_add_mod',
      Nat.div_add_mod']

/-! ## Stored integers -/

namespace IntColumn

/-- The bits of a row's slot, null or not. -/
def bitsAt (ints : IntColumn) (row : ℕ) : ints.type.Native := (ints.slots[row]?).elim 0 Slot.value

/-- The stored width in bytes. -/
def width (ints : IntColumn) : ℕ := ints.type.bits / 8

/-- A row's value at its stored width, sign bit flipped. -/
def word (ints : IntColumn) (row : ℕ) : ℕ := flip ints.type.signed (ints.bitsAt row)

/-- A row's value as order-preserving bytes. -/
def pack (ints : IntColumn) (row : ℕ) : Bytes := beBytes ints.width (ints.word row)

end IntColumn

/-- The paths of a list column: each row's elements at their stored type, a null list's as its span holds
them, and a null element as its slot does. -/
structure StoredPaths where
  type : IntType
  rows : List (List type.Native)

namespace StoredPaths

/-- A column of paths, where its elements are integers. -/
def resolve (item : ScalarType) (rows : List (Slot (List (Slot item.Value)))) : Option StoredPaths :=
  match item, rows with
  | .int t, rows => some ⟨t, rows.map fun r => r.value.map Slot.value⟩
  | _, _ => none

/-- The elements of a row's path. -/
def pathAt (paths : StoredPaths) (row : ℕ) : List paths.type.Native := paths.rows.getD row []

/-- The values of a row's path. -/
def valuesAt (paths : StoredPaths) (row : ℕ) : List ℤ := (paths.pathAt row).map paths.type.value

/-- The stored width of an element in bytes. -/
def width (paths : StoredPaths) : ℕ := paths.type.bits / 8

/-- A row's path as order-preserving bytes. -/
def pack (paths : StoredPaths) (row : ℕ) : Bytes :=
  (paths.pathAt row).flatMap fun v => beBytes paths.width (flip paths.type.signed v)

end StoredPaths

/-! ## The forms -/

/-- Integer columns and at most a trailing path of integers. -/
structure TypedKeys where
  fixed : List IntColumn
  path : Option StoredPaths

/-- Keys written out as bytes, end to end. -/
structure PackedKeys where
  ends : List ℕ
  bytes : Bytes

/-- A row's bytes. -/
def PackedKeys.key (keys : PackedKeys) (row : ℕ) : Bytes :=
  let start := if row = 0 then 0 else keys.ends.getD (row - 1) 0
  (keys.bytes.drop start).take (keys.ends.getD row 0 - start)

/-- Every batch's sort keys. -/
inductive SortKeys
  | words (keys : List (List ℕ))
  | typed (keys : List TypedKeys)
  | packed (keys : List PackedKeys)

/-- One batch's keys when its columns are integers with at most a trailing list of integers. -/
def typedKeys (columns : List Column) : Option TypedKeys :=
  columns.getLast?.bind fun last =>
    match last with
    | .list false item rows =>
      (columns.dropLast.mapM IntColumn.resolve).bind fun fixed =>
        (StoredPaths.resolve item rows).map fun path => ⟨fixed, some path⟩
    | _ => (columns.mapM IntColumn.resolve).map fun fixed => ⟨fixed, none⟩

/-- A word moved up by a column's width; by all of its 64 bits, nothing is left of it. -/
def checkedShl (word bits : ℕ) : ℕ := if bits < 64 then word * 2 ^ bits % 2 ^ 64 else 0

/-- A row's columns in one word, the first highest. -/
def rowWord (fixed : List IntColumn) (row : ℕ) : ℕ :=
  fixed.foldl (fun word column => checkedShl word column.type.bits ||| column.word row) 0

/-- Typed keys as one word a row, when they have no path and fit one. -/
def wordKeys (keys : TypedKeys) : Option (List ℕ) :=
  if keys.path.isSome || decide (64 < (keys.fixed.map fun column => column.width * 8).sum) then none
  else some ((List.range ((keys.fixed.head?).elim 0 fun column => column.slots.length)).map (rowWord keys.fixed))

/-- The rows some keys are of. -/
def TypedKeys.numRows (keys : TypedKeys) : ℕ :=
  match keys.fixed.head? with
  | some column => column.slots.length
  | none => keys.path.elim 0 fun paths => paths.rows.length

/-- The bytes a row takes. -/
def TypedKeys.size (keys : TypedKeys) (row : ℕ) : ℕ :=
  (keys.fixed.map IntColumn.width).sum + keys.path.elim 0 fun paths => (paths.pathAt row).length * paths.width

/-- A row's bytes: its columns, then its path. -/
def TypedKeys.packRow (keys : TypedKeys) (row : ℕ) : Bytes :=
  (keys.fixed.flatMap fun column => column.pack row) ++ keys.path.elim [] fun paths => paths.pack row

/-- Typed keys written out as bytes: where each row's end, and all of them. -/
def packedKeys (keys : TypedKeys) : PackedKeys where
  ends := (List.range keys.numRows).map fun row => ∑ i ∈ Finset.range (row + 1), keys.size i
  bytes := (List.range keys.numRows).flatMap keys.packRow

/-- Paths at least this deep on average are compared as bytes. -/
def packedDepth : ℕ := 8

/-- Whether a batch's paths are deep. -/
def TypedKeys.isDeep (keys : TypedKeys) : Bool :=
  keys.path.any fun paths => decide (packedDepth * max paths.rows.length 1 ≤ (paths.rows.map List.length).sum)

/-- Every batch's typed keys, when each column is of one type across the batches. -/
def typedKeysOf (batches : List RecordBatch) (sortColumns : List String) : Option (List TypedKeys) :=
  batches.head?.bind fun first =>
    if sortColumns = [] then none
    else
      (sortColumns.mapM fun name => (first.columnByName name).map Column.dataType).bind fun types =>
        (batches.mapM fun batch : RecordBatch => sortColumns.mapM batch.columnByName).bind fun columns =>
          if columns.all fun cs => (cs.zip types).all fun p => decide (p.1.dataType = p.2) then
            columns.mapM typedKeys
          else none

/-- The sort keys of every batch: words where they fit, bytes for deep paths. -/
def rowSortKeys (batches : List RecordBatch) (sortColumns : List String) : Option SortKeys :=
  (typedKeysOf batches sortColumns).map fun typed =>
    match typed.mapM wordKeys with
    | some words => .words words
    | none => if typed.any TypedKeys.isDeep then .packed (typed.map packedKeys) else .typed typed

namespace SortKeys

/-- Two rows by their columns, then by their paths. -/
def compareTyped (a b : TypedKeys) (rowA rowB : ℕ) : Ordering :=
  (firstApart ((a.fixed.zip b.fixed).map fun p => cmp (TypedSortColumn.intAt p.1 rowA)
    (TypedSortColumn.intAt p.2 rowB))).then
    (match a.path, b.path with
    | some pathA, some pathB => order (pathA.valuesAt rowA) (pathB.valuesAt rowB)
    | _, _ => .eq)

/-- Two rows by their keys. -/
def compare : SortKeys → ℕ × ℕ → ℕ × ℕ → Ordering
  | words keys, a, b => cmp ((keys.getD a.1 []).getD a.2 0) ((keys.getD b.1 []).getD b.2 0)
  | typed keys, a, b => compareTyped (keys.getD a.1 ⟨[], none⟩) (keys.getD b.1 ⟨[], none⟩) a.2 b.2
  | packed keys, a, b => order ((keys.getD a.1 ⟨[], []⟩).key a.2) ((keys.getD b.1 ⟨[], []⟩).key b.2)

/-- `(batch, row)` references sorted by keys, then by file order. -/
def sort (keys : SortKeys) (rows : List (ℕ × ℕ)) : List (ℕ × ℕ) :=
  match keys with
  | words table => rows.insertionSort fun a b =>
      toLex ((table.getD a.1 []).getD a.2 0, toLex a) ≤ toLex ((table.getD b.1 []).getD b.2 0, toLex b)
  | keys => rows.insertionSort fun a b => ((keys.compare a b).then (cmp (toLex a) (toLex b))).isLE = true

end SortKeys

/-- Rows sorted by the keys that were prepared, or column by column. -/
def sortRowsByOrderKeysIndexed (rows : List (ℕ × ℕ)) (order : RowOrder) (keys : Option SortKeys) :
    List (ℕ × ℕ) :=
  match keys with
  | some keys => keys.sort rows
  | none => order.sort rows

/-! ## Values and their words -/

section Words

variable {a b : IntColumn}

/-- A row's integer is the value of its slot's bits. -/
theorem intAt_eq (ints : IntColumn) (row : ℕ) :
    TypedSortColumn.intAt ints row = ints.type.value (ints.bitsAt row) := by
  rw [TypedSortColumn.intAt, IntColumn.values, IntColumn.bitsAt, List.getD_eq_getElem?_getD, List.getElem?_map]
  cases ints.slots[row]? with
  | none => simp [IntType.value]
  | some s => rfl

theorem width_mul (ints : IntColumn) : ints.width * 8 = ints.type.bits := by
  have hbits := ints.type.bits_cases
  rw [IntColumn.width]
  omega

theorem pow_width (t : IntType) : 256 ^ (t.bits / 8) = 2 ^ t.bits := by
  rw [show (256 : ℕ) = 2 ^ 8 by rfl, ← pow_mul]
  have hbits := t.bits_cases
  congr 1
  omega

/-- **Values of one type order as their flipped bits.** -/
theorem cmp_flip_value {t : IntType} (v w : t.Native) :
    cmp (flip t.signed v) (flip t.signed w) = cmp (t.value v) (t.value w) := cmp_flip t.bits_pos t.signed v w

theorem cmp_word (h : a.type = b.type) (rowA rowB : ℕ) : cmp (a.word rowA) (b.word rowB) =
    cmp (TypedSortColumn.intAt a rowA) (TypedSortColumn.intAt b rowB) := by
  obtain ⟨t, slotsA⟩ := a
  obtain ⟨t', slotsB⟩ := b
  obtain rfl : t = t' := h
  rw [intAt_eq, intAt_eq]
  exact cmp_flip_value _ _

/-- **A word moved up leaves room for the next column's.** -/
theorem checkedShl_or {word used bits d : ℕ} (hword : word < 2 ^ used) (hbits : used + bits ≤ 64)
    (hd : d < 2 ^ bits) : checkedShl word bits ||| d = word * 2 ^ bits + d := by
  have hroom : word * 2 ^ bits < 2 ^ 64 := by
    calc word * 2 ^ bits < 2 ^ used * 2 ^ bits := Nat.mul_lt_mul_of_pos_right hword (by positivity)
      _ = 2 ^ (used + bits) := (pow_add ..).symm
      _ ≤ 2 ^ 64 := Nat.pow_le_pow_right (by decide) hbits
  rw [checkedShl]
  split
  · rw [Nat.mod_eq_of_lt hroom, Nat.mul_comm, Nat.two_pow_add_eq_or_of_lt hd]
  · obtain rfl : used = 0 := by omega
    obtain rfl : word = 0 := by simpa using hword
    rw [Nat.zero_or, Nat.zero_mul, Nat.zero_add]

/-- **Words order as their columns do**, one after the other. -/
theorem cmp_foldl_word (rowA rowB : ℕ) {as bs : List IntColumn}
    (h : List.Forall₂ (fun a b => a.type = b.type) as bs) : ∀ {x y used : ℕ}, x < 2 ^ used → y < 2 ^ used →
      used + (as.map fun column => column.width * 8).sum ≤ 64 →
      cmp (as.foldl (fun word column => checkedShl word column.type.bits ||| column.word rowA) x)
          (bs.foldl (fun word column => checkedShl word column.type.bits ||| column.word rowB) y) =
        (cmp x y).then (firstApart ((as.zip bs).map fun p =>
          cmp (TypedSortColumn.intAt p.1 rowA) (TypedSortColumn.intAt p.2 rowB))) := by
  induction h with
  | nil =>
    intro x y used _ _ _
    exact (Ordering.then_eq ..).symm
  | @cons a b as bs htype hrest ih =>
    intro x y used hx hy hroom
    rw [List.map_cons, List.sum_cons, width_mul] at hroom
    have hlt {c : IntColumn} (row : ℕ) : c.word row < 2 ^ c.type.bits := flip_lt _ _
    have hup {z d : ℕ} (hz : z < 2 ^ used) (hd : d < 2 ^ a.type.bits) :
        z * 2 ^ a.type.bits + d < 2 ^ (used + a.type.bits) := by
      calc z * 2 ^ a.type.bits + d < (z + 1) * 2 ^ a.type.bits := by rw [Nat.succ_mul]; omega
        _ ≤ 2 ^ used * 2 ^ a.type.bits := Nat.mul_le_mul_right _ hz
        _ = 2 ^ (used + a.type.bits) := (pow_add ..).symm
    have hb : b.word rowB < 2 ^ a.type.bits := htype ▸ hlt rowB
    rw [List.foldl_cons, List.foldl_cons, ← htype, checkedShl_or hx (by omega) (hlt rowA),
      checkedShl_or hy (by omega) hb, ih (hup hx (hlt rowA)) (hup hy hb) (by omega),
      cmp_mul_add (hlt rowA) hb, cmp_word htype, List.zip_cons_cons, List.map_cons, firstApart_cons, then_assoc]

/-- Rows whose columns fit one word compare by it. -/
theorem cmp_rowWord {as bs : List IntColumn} (h : List.Forall₂ (fun a b => a.type = b.type) as bs)
    (hroom : (as.map fun column => column.width * 8).sum ≤ 64) (rowA rowB : ℕ) :
    cmp (rowWord as rowA) (rowWord bs rowB) = firstApart ((as.zip bs).map fun p =>
      cmp (TypedSortColumn.intAt p.1 rowA) (TypedSortColumn.intAt p.2 rowB)) := by
  have hzero : 0 < 2 ^ 0 := by decide
  rw [rowWord, rowWord, cmp_foldl_word rowA rowB h hzero hzero (by omega), cmp_self_eq_eq]
  rfl

end Words

/-! ## Values and their bytes -/

section Bytes

/-- **Columns written as bytes order as they do**, one after the other. -/
theorem order_flatMap_pack (rowA rowB : ℕ) {as bs : List IntColumn}
    (h : List.Forall₂ (fun a b => a.type = b.type) as bs) :
    (as.flatMap fun c => c.pack rowA).length = (bs.flatMap fun c => c.pack rowB).length ∧
      order (as.flatMap fun c => c.pack rowA) (bs.flatMap fun c => c.pack rowB) =
        firstApart ((as.zip bs).map fun p =>
          cmp (TypedSortColumn.intAt p.1 rowA) (TypedSortColumn.intAt p.2 rowB)) := by
  induction h with
  | nil => exact ⟨rfl, order_self _⟩
  | @cons a b as bs htype _ ih =>
    obtain ⟨hlength, horder⟩ := ih
    have hwidth : a.width = b.width := by rw [IntColumn.width, IntColumn.width, htype]
    have hpack : (a.pack rowA).length = (b.pack rowB).length := by
      rw [IntColumn.pack, IntColumn.pack, length_beBytes, length_beBytes, hwidth]
    have hlt {c : IntColumn} (row : ℕ) : c.word row < 256 ^ c.width := by
      rw [IntColumn.width, pow_width]
      exact flip_lt _ _
    have hone : order (a.pack rowA) (b.pack rowB) =
        cmp (TypedSortColumn.intAt a rowA) (TypedSortColumn.intAt b rowB) := by
      rw [IntColumn.pack, IntColumn.pack, ← hwidth, order_beBytes (hlt rowA) (hwidth ▸ hlt rowB), cmp_word htype]
    refine ⟨?_, ?_⟩
    · rw [List.flatMap_cons, List.flatMap_cons, List.length_append, List.length_append, hpack, hlength]
    · rw [List.flatMap_cons, List.flatMap_cons, order_append hpack, horder, hone, List.zip_cons_cons,
        List.map_cons, firstApart_cons]

theorem order_nil_cons {α : Type} [LinearOrder α] (a : α) (as : List α) : order [] (a :: as) = .lt :=
  (cmp_eq_lt_iff _ _).mpr (List.nil_lt_cons a as)

theorem order_cons_nil {α : Type} [LinearOrder α] (a : α) (as : List α) : order (a :: as) [] = .gt :=
  (cmp_eq_gt_iff _ _).mpr (List.nil_lt_cons a as)

/-- **Paths written as bytes order as they do**: element by element, then by length. -/
theorem order_flatMap_flip {t : IntType} : ∀ vs ws : List t.Native,
    order (vs.flatMap fun v => beBytes (t.bits / 8) (flip t.signed v))
        (ws.flatMap fun w => beBytes (t.bits / 8) (flip t.signed w)) =
      order (vs.map t.value) (ws.map t.value) := by
  have hcons (v : t.Native) : ∃ c cs, beBytes (t.bits / 8) (flip t.signed v) = c :: cs := by
    refine List.exists_cons_of_ne_nil fun h => ?_
    have hlength := length_beBytes (t.bits / 8) (flip t.signed v)
    have hbits := t.bits_cases
    rw [h, List.length_nil] at hlength
    omega
  have hlt (v : t.Native) : flip t.signed v < 256 ^ (t.bits / 8) := by
    rw [pow_width]
    exact flip_lt _ _
  intro vs
  induction vs with
  | nil =>
    intro ws
    cases ws with
    | nil => exact (order_self _).trans (order_self _).symm
    | cons w ws =>
      obtain ⟨c, cs, hc⟩ := hcons w
      rw [List.flatMap_cons, hc]
      exact (order_nil_cons _ _).trans (order_nil_cons _ _).symm
  | cons v vs ih =>
    intro ws
    cases ws with
    | nil =>
      obtain ⟨c, cs, hc⟩ := hcons v
      rw [List.flatMap_cons, hc]
      exact (order_cons_nil _ _).trans (order_cons_nil _ _).symm
    | cons w ws =>
      rw [List.flatMap_cons, List.flatMap_cons, order_append (by simp), order_beBytes (hlt v) (hlt w),
        cmp_flip_value, ih, List.map_cons, List.map_cons, order_cons, ← order_eq_cmp]

theorem order_pack {a b : StoredPaths} (h : a.type = b.type) (rowA rowB : ℕ) :
    order (a.pack rowA) (b.pack rowB) = order (a.valuesAt rowA) (b.valuesAt rowB) := by
  obtain ⟨t, rowsA⟩ := a
  obtain ⟨t', rowsB⟩ := b
  obtain rfl : t = t' := h
  exact order_flatMap_flip _ _

end Bytes

/-! ## One order in every form -/

section Forms

/-- Keys of one shape: columns of the same types, and paths of one type or none. -/
structure TypedKeys.Alike (a b : TypedKeys) : Prop where
  fixed : List.Forall₂ (fun x y : IntColumn => x.type = y.type) a.fixed b.fixed
  path : Option.Rel (fun x y : StoredPaths => x.type = y.type) a.path b.path

variable {a b keys : TypedKeys}

/-- **Rows written as bytes order as typed.** -/
theorem order_packRow (h : a.Alike b) (rowA rowB : ℕ) :
    order (a.packRow rowA) (b.packRow rowB) = SortKeys.compareTyped a b rowA rowB := by
  obtain ⟨hlength, hfixed⟩ := order_flatMap_pack rowA rowB h.fixed
  rw [TypedKeys.packRow, TypedKeys.packRow, order_append hlength, hfixed, SortKeys.compareTyped]
  congr 1
  obtain ⟨_, pathA⟩ := a
  obtain ⟨_, pathB⟩ := b
  cases h.path with
  | none => exact order_self _
  | some htype => exact order_pack htype rowA rowB

theorem length_packRow (keys : TypedKeys) (row : ℕ) : (keys.packRow row).length = keys.size row := by
  have hfixed : (keys.fixed.flatMap fun column => column.pack row).length =
      (keys.fixed.map IntColumn.width).sum := by
    rw [List.length_flatMap]
    simp only [IntColumn.pack, length_beBytes]
  rw [TypedKeys.packRow, List.length_append, hfixed, TypedKeys.size]
  congr 1
  cases keys.path with
  | none => rfl
  | some paths => simp [StoredPaths.pack, List.length_flatMap]

/-- **A row's bytes are found where they were written.** -/
theorem key_packedKeys {row : ℕ} (h : row < keys.numRows) :
    (packedKeys keys).key row = keys.packRow row := by
  have hends {i : ℕ} (hi : i < keys.numRows) :
      (packedKeys keys).ends.getD i 0 = ∑ j ∈ Finset.range (i + 1), keys.size j := by
    rw [packedKeys, List.getD_eq_getElem?_getD, List.getElem?_map, List.getElem?_range hi]
    rfl
  have hstart : (if row = 0 then 0 else (packedKeys keys).ends.getD (row - 1) 0) =
      ∑ j ∈ Finset.range row, keys.size j := by
    split
    · next h0 => rw [h0, Finset.sum_range_zero]
    · next h0 => rw [hends (by omega), Nat.sub_add_cancel (by omega)]
  have hrun := CountingSort.run_flatMap_range keys.packRow h
  simp only [length_packRow] at hrun
  rw [PackedKeys.key, hstart, hends h, Finset.sum_range_succ, Nat.add_sub_cancel_left]
  exact hrun

/-- What a word key says: there is no path, the columns fit, and each row has its word. -/
theorem wordKeys_eq_some {words : List ℕ} (h : wordKeys keys = some words) :
    keys.path = none ∧ (keys.fixed.map fun column => column.width * 8).sum ≤ 64 ∧
      ∀ row < keys.numRows, words.getD row 0 = rowWord keys.fixed row := by
  obtain ⟨fixed, path⟩ := keys
  rw [wordKeys] at h
  split at h
  · exact absurd h (by simp)
  · next hfit =>
    rw [Bool.or_eq_true, not_or, decide_eq_true_eq, Nat.not_lt, Bool.not_eq_true, Option.isSome_eq_false_iff,
      Option.isNone_iff_eq_none] at hfit
    obtain ⟨hpath, hroom⟩ := hfit
    refine ⟨hpath, hroom, fun row hrow => ?_⟩
    obtain rfl := Option.some.inj h
    obtain rfl : path = none := hpath
    rw [List.getD_eq_getElem?_getD, List.getElem?_map, List.getElem?_range]
    · rfl
    · rw [TypedKeys.numRows] at hrow
      cases fixed with
      | nil => exact absurd hrow (Nat.not_lt_zero row)
      | cons column _ => exact hrow

/-- **Rows in one word order as typed.** -/
theorem cmp_wordKeys {wordsA wordsB : List ℕ} (h : a.Alike b) (ha : wordKeys a = some wordsA)
    (hb : wordKeys b = some wordsB) {rowA rowB : ℕ} (hA : rowA < a.numRows) (hB : rowB < b.numRows) :
    cmp (wordsA.getD rowA 0) (wordsB.getD rowB 0) = SortKeys.compareTyped a b rowA rowB := by
  obtain ⟨hpath, hroom, hwords⟩ := wordKeys_eq_some ha
  obtain ⟨_, _, hwords'⟩ := wordKeys_eq_some hb
  rw [hwords rowA hA, hwords' rowB hB, cmp_rowWord h.fixed hroom, SortKeys.compareTyped, hpath]
  exact Ordering.then_eq.symm

end Forms

/-! ## Keys and columns -/

section Columns

theorem resolve_int {c : Column} {ints : IntColumn} (h : IntColumn.resolve c = some ints) :
    TypedSortColumn.resolve c = some (.int ints) ∧ c.dataType = .scalar (.int ints.type) ∧
      ints.slots.length = c.len := by
  rcases c with ⟨_ | _ | _ | _ | _, rows⟩ | _ | _
  case scalar.int =>
    obtain rfl := Option.some.inj h
    exact ⟨rfl, rfl, rfl⟩
  all_goals exact absurd h (by simp [IntColumn.resolve])

/-- What typed keys are: the columns' integers, with a path when the last is one. -/
theorem typedKeys_eq_some {columns : List Column} {keys : TypedKeys} (h : typedKeys columns = some keys) :
    (∃ cs t rows, columns = cs ++ [.list false (.int t) rows] ∧ cs.mapM IntColumn.resolve = some keys.fixed ∧
      keys.path = some ⟨t, rows.map fun r => r.value.map Slot.value⟩) ∨
    columns ≠ [] ∧ columns.mapM IntColumn.resolve = some keys.fixed ∧ keys.path = none := by
  obtain ⟨last, hlast, h⟩ := Option.bind_eq_some_iff.mp h
  have hsplit := List.dropLast_append_getLast? last hlast
  split at h
  · next item rows =>
    obtain ⟨fixed, hfixed, h⟩ := Option.bind_eq_some_iff.mp h
    obtain ⟨paths, hpaths, rfl⟩ := Option.map_eq_some_iff.mp h
    cases item with
    | int t =>
      obtain rfl := Option.some.inj hpaths
      exact .inl ⟨_, t, rows, hsplit.symm, hfixed, rfl⟩
    | _ => exact absurd hpaths (by simp [StoredPaths.resolve])
  · obtain ⟨fixed, hfixed, rfl⟩ := Option.map_eq_some_iff.mp h
    refine .inr ⟨fun hnil => ?_, hfixed, rfl⟩
    rw [hnil] at hlast
    exact absurd hlast (by simp)

/-- Integer columns of the same types compare alike as columns and as keys. -/
theorem compareColumns_ints {as bs : List Column} {fa fb : List IntColumn}
    (ha : List.Forall₂ (fun c ints => IntColumn.resolve c = some ints) as fa)
    (hb : List.Forall₂ (fun c ints => IntColumn.resolve c = some ints) bs fb)
    (htypes : as.map Column.dataType = bs.map Column.dataType) :
    List.Forall₂ (fun x y : IntColumn => x.type = y.type) fa fb ∧ ∀ rowA rowB,
      ((as.map TypedSortColumn.resolve).zip (bs.map TypedSortColumn.resolve)).filterMap (fun p =>
          p.1.bind fun a => p.2.map fun b => a.cmpRows rowA b rowB) =
        (fa.zip fb).map fun p => cmp (TypedSortColumn.intAt p.1 rowA) (TypedSortColumn.intAt p.2 rowB) := by
  induction ha generalizing bs fb with
  | nil =>
    obtain rfl : bs = [] := List.map_eq_nil_iff.mp htypes.symm
    cases hb
    exact ⟨.nil, fun _ _ => rfl⟩
  | @cons c x as fa hc _ ih =>
    cases hb with
    | nil => exact absurd htypes (by simp)
    | @cons d y bs fb hd hb =>
      obtain ⟨hresolve, htype, _⟩ := resolve_int hc
      obtain ⟨hresolve', htype', _⟩ := resolve_int hd
      rw [List.map_cons, List.map_cons, List.cons.injEq, htype, htype'] at htypes
      obtain ⟨hfixed, hrest⟩ := ih hb htypes.2
      refine ⟨.cons ?_ hfixed, fun rowA rowB => ?_⟩
      · simpa using htypes.1
      · rw [List.map_cons, List.map_cons, List.zip_cons_cons, List.zip_cons_cons, List.map_cons, hresolve, hresolve']
        exact congrArg (List.cons _) (hrest rowA rowB)

/-- Integer columns have no list among their types. -/
theorem not_list_of_ints {as bs : List Column} {t : IntType} {rows : List (Slot (List (Slot t.Native)))}
    {fixed : List IntColumn} (has : as.mapM IntColumn.resolve = some fixed)
    (h : as.map Column.dataType = (bs ++ [Column.list false (.int t) rows]).map Column.dataType) : False := by
  have hlist : DataType.list false (.int t) ∈ as.map Column.dataType := by
    rw [h, List.map_append]
    exact List.mem_append_right _ (List.mem_singleton.mpr rfl)
  obtain ⟨c, hc, htype⟩ := List.mem_map.mp hlist
  have hall := Fallible.isSome_mapM IntColumn.resolve as
  rw [has, Option.isSome_some, eq_comm, List.all_eq_true] at hall
  obtain ⟨ints, hint⟩ := Option.isSome_iff_exists.mp (hall c hc)
  exact absurd (htype.symm.trans (resolve_int hint).2.1) (by simp)

theorem compare_path {t : IntType} (rowsA rowsB : List (Slot (List (Slot t.Native)))) (rowA rowB : ℕ) :
    compareColumns [TypedSortColumn.resolve (.list false (.int t) rowsA)]
        [TypedSortColumn.resolve (.list false (.int t) rowsB)] rowA rowB =
      order (StoredPaths.valuesAt ⟨t, rowsA.map fun r => r.value.map Slot.value⟩ rowA)
        (StoredPaths.valuesAt ⟨t, rowsB.map fun r => r.value.map Slot.value⟩ rowB) := by
  have hvalues (rows : List (Slot (List (Slot t.Native)))) (row : ℕ) :
      StoredPaths.valuesAt ⟨t, rows.map fun r => r.value.map Slot.value⟩ row =
        (rows.map fun r => r.value.map fun s => t.value s.value).getD row [] := by
    rw [StoredPaths.valuesAt, StoredPaths.pathAt, List.getD_eq_getElem?_getD, List.getD_eq_getElem?_getD,
      List.getElem?_map, List.getElem?_map]
    cases rows[row]? with
    | none => rfl
    | some r => exact List.map_map
  rw [hvalues, hvalues, order_eq_cmp]
  exact (firstApart_cons _ []).trans Ordering.then_eq

/-- **Columns and their typed keys compare rows alike.** -/
theorem typedKeys_compare {as bs : List Column} {a b : TypedKeys} (ha : typedKeys as = some a)
    (hb : typedKeys bs = some b) (htypes : as.map Column.dataType = bs.map Column.dataType) :
    a.Alike b ∧ ∀ rowA rowB, SortKeys.compareTyped a b rowA rowB =
      compareColumns (as.map TypedSortColumn.resolve) (bs.map TypedSortColumn.resolve) rowA rowB := by
  obtain ⟨fixedA, pathA⟩ := a
  obtain ⟨fixedB, pathB⟩ := b
  rcases typedKeys_eq_some ha with ⟨as, t, rowsA, rfl, hfixedA, hpathA⟩ | ⟨_, hfixedA, hpathA⟩ <;>
    rcases typedKeys_eq_some hb with ⟨bs, t', rowsB, rfl, hfixedB, hpathB⟩ | ⟨_, hfixedB, hpathB⟩
  · rw [List.map_append, List.map_append] at htypes
    obtain ⟨hinit, hlast⟩ := List.append_inj' htypes rfl
    obtain rfl : t = t' := by simpa [Column.dataType] using hlast
    obtain ⟨hfixed, hcompare⟩ := compareColumns_ints (Fallible.mapM_eq_some.mp hfixedA)
      (Fallible.mapM_eq_some.mp hfixedB) hinit
    obtain rfl := hpathA
    obtain rfl := hpathB
    refine ⟨⟨hfixed, .some rfl⟩, fun rowA rowB => ?_⟩
    have hlength : (as.map TypedSortColumn.resolve).length = (bs.map TypedSortColumn.resolve).length := by
      simpa using congrArg List.length hinit
    rw [compareColumns, List.map_append, List.map_append, List.zip_append hlength, List.filterMap_append,
      hcompare, firstApart_append, SortKeys.compareTyped]
    congr 1
    exact (compare_path rowsA rowsB rowA rowB).symm
  · exact (not_list_of_ints hfixedB htypes.symm).elim
  · exact (not_list_of_ints hfixedA htypes).elim
  · obtain ⟨hfixed, hcompare⟩ := compareColumns_ints (Fallible.mapM_eq_some.mp hfixedA)
      (Fallible.mapM_eq_some.mp hfixedB) htypes
    obtain rfl := hpathA
    obtain rfl := hpathB
    refine ⟨⟨hfixed, .none⟩, fun rowA rowB => ?_⟩
    rw [compareColumns, hcompare, SortKeys.compareTyped]
    exact Ordering.then_eq

/-- A batch's keys, for some columns of the given types. -/
def KeysOf (names : List String) (types : List DataType) (batch : RecordBatch) (keys : TypedKeys) : Prop :=
  ∃ columns, names.mapM batch.columnByName = some columns ∧ columns.map Column.dataType = types ∧
    typedKeys columns = some keys

variable {names : List String} {types : List DataType} {batch other : RecordBatch} {a b keys : TypedKeys}

/-- The sort columns are the columns of the names, resolved. -/
theorem sortColumns_of_columns {batch : RecordBatch} {names : List String} {columns : List Column}
    (h : List.Forall₂ (fun name c => batch.columnByName name = some c) names columns) :
    batch.sortColumns names = columns.map TypedSortColumn.resolve := by
  induction h with
  | nil => rfl
  | cons hc _ ih =>
    rw [List.map_cons, ← ih, RecordBatch.sortColumns, List.map_cons, hc]
    rfl

/-- **Batches' keys compare rows as their columns do.** -/
theorem KeysOf.compare (ha : KeysOf names types batch a) (hb : KeysOf names types other b) :
    a.Alike b ∧ ∀ rowA rowB, SortKeys.compareTyped a b rowA rowB =
      compareColumns (batch.sortColumns names) (other.sortColumns names) rowA rowB := by
  obtain ⟨as, has, htypesA, ha⟩ := ha
  obtain ⟨bs, hbs, htypesB, hb⟩ := hb
  rw [sortColumns_of_columns (Fallible.mapM_eq_some.mp has), sortColumns_of_columns (Fallible.mapM_eq_some.mp hbs)]
  exact typedKeys_compare ha hb (htypesA.trans htypesB.symm)

/-- The columns of the names have the batch's rows. -/
theorem len_of_columns {batch : RecordBatch} {names : List String} {columns : List Column}
    (h : List.Forall₂ (fun name c => batch.columnByName name = some c) names columns) :
    ∀ c ∈ columns, c.len = batch.numRows := by
  induction h with
  | nil => exact fun c hc => absurd hc List.not_mem_nil
  | cons hc _ ih => exact List.forall_mem_cons.mpr ⟨RecordBatch.len_columnByName hc, ih⟩

/-- The first of the fixed keys has the rows of the first column. -/
theorem length_head_fixed {columns : List Column} {fixed : List IntColumn} {rows : ℕ}
    (hfixed : columns.mapM IntColumn.resolve = some fixed) (hlen : ∀ c ∈ columns, c.len = rows) :
    ∀ ints ∈ fixed.head?, ints.slots.length = rows := by
  intro ints hints
  have hforall := Fallible.mapM_eq_some.mp hfixed
  cases hforall with
  | nil => exact absurd hints (by simp)
  | cons hint _ =>
    obtain rfl : _ = ints := by simpa using hints
    rw [(resolve_int hint).2.2]
    exact hlen _ List.mem_cons_self

/-- A batch's keys are of its rows. -/
theorem KeysOf.numRows (h : KeysOf names types batch keys) : keys.numRows = batch.numRows := by
  obtain ⟨columns, hcolumns, _, hkeys⟩ := h
  have hlen := len_of_columns (Fallible.mapM_eq_some.mp hcolumns)
  obtain ⟨fixed, path⟩ := keys
  rcases typedKeys_eq_some hkeys with ⟨cs, t, rows, rfl, hfixed, hpath⟩ | ⟨hne, hfixed, hpath⟩
  · obtain rfl := hpath
    rw [TypedKeys.numRows]
    cases hhead : fixed.head? with
    | some ints => exact length_head_fixed hfixed (fun c hc => hlen c (List.mem_append_left _ hc)) ints hhead
    | none =>
      have hlist := hlen (.list false (.int t) rows) (by simp)
      simpa [Column.len] using hlist
  · rw [TypedKeys.numRows]
    cases hhead : fixed.head? with
    | some ints => exact length_head_fixed hfixed hlen ints hhead
    | none =>
      obtain rfl := List.head?_eq_none_iff.mp hhead
      cases Fallible.mapM_eq_some.mp hfixed
      exact absurd rfl hne

/-- Every batch's typed keys are of its columns, each of one type throughout. -/
theorem typedKeysOf_eq_some {batches : List RecordBatch} {typed : List TypedKeys}
    (hkeys : typedKeysOf batches names = some typed) :
    ∃ types, List.Forall₂ (KeysOf names types) batches typed := by
  obtain ⟨first, _, hkeys⟩ := Option.bind_eq_some_iff.mp hkeys
  split at hkeys
  · exact absurd hkeys (by simp)
  obtain ⟨types, htypes, hkeys⟩ := Option.bind_eq_some_iff.mp hkeys
  obtain ⟨columns, hcolumns, hkeys⟩ := Option.bind_eq_some_iff.mp hkeys
  split at hkeys
  · next hall =>
    refine ⟨types, ?_⟩
    have hlength := (Fallible.mapM_eq_some.mp htypes).length_eq
    rw [List.all_eq_true] at hall
    have hcolumns := Fallible.mapM_eq_some.mp hcolumns
    have htyped := Fallible.mapM_eq_some.mp hkeys
    clear * - hall hlength hcolumns htyped
    induction hcolumns generalizing typed with
    | nil =>
      cases htyped
      exact .nil
    | @cons batch cs batches columns hcs _ ih =>
      cases htyped with
      | @cons _ keys _ typed hone hrest =>
        refine .cons ⟨cs, hcs, ?_, hone⟩ (ih (fun cs hcs => hall cs (List.mem_cons_of_mem _ hcs)) hrest)
        have htypes := hall cs List.mem_cons_self
        rw [List.all_eq_true] at htypes
        have hsame := (Fallible.mapM_eq_some.mp hcs).length_eq
        refine List.ext_getElem (by rw [List.length_map]; omega) fun i h₁ h₂ => ?_
        rw [List.length_map] at h₁
        have hi := htypes (cs[i], types[i]) (List.mem_iff_getElem.mpr
          ⟨i, by rw [List.length_zip]; omega, List.getElem_zip⟩)
        rw [List.getElem_map]
        exact of_decide_eq_true hi
  · exact absurd hkeys (by simp)

end Columns

/-! ## Sorting -/

/-- The order of some batches' rows by named columns. -/
def RowOrder.over (batches : List RecordBatch) (names : List String) : RowOrder :=
  ⟨names, batches.map fun batch => batch.sortColumns names⟩

/-- Rows that some batches have. -/
def RowsOf (batches : List RecordBatch) (rows : List (ℕ × ℕ)) : Prop :=
  ∀ row ∈ rows, ∃ batch, batches[row.1]? = some batch ∧ row.2 < batch.numRows

section Sorting

variable {batches : List RecordBatch} {names : List String} {rows : List (ℕ × ℕ)}

/-- Keys that compare rows as their columns do sort them as their columns do. -/
theorem sort_eq_sort {keys : SortKeys} {order : RowOrder}
    (h : ∀ a ∈ rows, ∀ b ∈ rows, keys.compare a b = order.compare a order b) : keys.sort rows = order.sort rows := by
  cases keys with
  | words table =>
    refine insertionSort_congr fun a ha b hb => ?_
    rw [← h a ha b hb, SortKeys.compare, then_cmp, isLE_cmp]
  | typed keys => exact insertionSort_congr fun a ha b hb => by rw [← h a ha b hb]
  | packed keys => exact insertionSort_congr fun a ha b hb => by rw [← h a ha b hb]

/-- A row's keys, and the columns it has. -/
theorem keysOf_row {types : List DataType} {typed : List TypedKeys}
    (h : List.Forall₂ (KeysOf names types) batches typed) (hrows : RowsOf batches rows) {row : ℕ × ℕ}
    (hrow : row ∈ rows) : ∃ batch keys, KeysOf names types batch keys ∧ typed[row.1]? = some keys ∧
      (RowOrder.over batches names).resolved.getD row.1 [] = batch.sortColumns names ∧ row.2 < keys.numRows := by
  obtain ⟨batch, hbatch, hlt⟩ := hrows row hrow
  obtain ⟨hi, rfl⟩ := List.getElem?_eq_some_iff.mp hbatch
  have hkeys := (List.forall₂_iff_get.mp h).2 row.1 hi (h.length_eq ▸ hi)
  refine ⟨_, _, hkeys, List.getElem?_eq_getElem (h.length_eq ▸ hi), ?_, ?_⟩
  · rw [RowOrder.over, List.getD_eq_getElem?_getD, List.getElem?_map, hbatch]
    rfl
  · rw [hkeys.numRows]
    exact hlt

/-- Keys of whatever form that compare a row's as typed keys do sort them as their columns do. -/
theorem sort_of_compareTyped {types : List DataType} {typed : List TypedKeys} {keys : SortKeys}
    (h : List.Forall₂ (KeysOf names types) batches typed) (hrows : RowsOf batches rows)
    (hcompare : ∀ (a b : ℕ × ℕ) (keysA keysB : TypedKeys), typed[a.1]? = some keysA → typed[b.1]? = some keysB →
      keysA.Alike keysB → a.2 < keysA.numRows → b.2 < keysB.numRows →
      keys.compare a b = SortKeys.compareTyped keysA keysB a.2 b.2) :
    keys.sort rows = (RowOrder.over batches names).sort rows := by
  refine sort_eq_sort fun a ha b hb => ?_
  obtain ⟨batchA, keysA, hkeysA, hA, hresolvedA, hrowA⟩ := keysOf_row h hrows ha
  obtain ⟨batchB, keysB, hkeysB, hB, hresolvedB, hrowB⟩ := keysOf_row h hrows hb
  obtain ⟨halike, htyped⟩ := hkeysA.compare hkeysB
  rw [hcompare a b keysA keysB hA hB halike hrowA hrowB, htyped, RowOrder.compare, hresolvedA, hresolvedB]

theorem sort_typed {types : List DataType} {typed : List TypedKeys}
    (h : List.Forall₂ (KeysOf names types) batches typed) (hrows : RowsOf batches rows) :
    (SortKeys.typed typed).sort rows = (RowOrder.over batches names).sort rows := by
  refine sort_of_compareTyped h hrows fun a b keysA keysB hA hB _ _ _ => ?_
  rw [SortKeys.compare, List.getD_eq_getElem?_getD, List.getD_eq_getElem?_getD, hA, hB]
  rfl

theorem sort_packed {types : List DataType} {typed : List TypedKeys}
    (h : List.Forall₂ (KeysOf names types) batches typed) (hrows : RowsOf batches rows) :
    (SortKeys.packed (typed.map packedKeys)).sort rows = (RowOrder.over batches names).sort rows := by
  refine sort_of_compareTyped h hrows fun a b keysA keysB hA hB halike hrowA hrowB => ?_
  rw [SortKeys.compare, List.getD_eq_getElem?_getD, List.getD_eq_getElem?_getD, List.getElem?_map,
    List.getElem?_map, hA, hB, Option.map_some, Option.map_some, Option.getD_some, Option.getD_some,
    key_packedKeys hrowA, key_packedKeys hrowB, order_packRow halike]

theorem sort_words {types : List DataType} {typed : List TypedKeys} {words : List (List ℕ)}
    (h : List.Forall₂ (KeysOf names types) batches typed) (hrows : RowsOf batches rows)
    (hwords : typed.mapM wordKeys = some words) :
    (SortKeys.words words).sort rows = (RowOrder.over batches names).sort rows := by
  have hforall := List.forall₂_iff_get.mp (Fallible.mapM_eq_some.mp hwords)
  have hat {i : ℕ} {keys : TypedKeys} (hi : typed[i]? = some keys) :
      wordKeys keys = some (words.getD i []) := by
    obtain ⟨hlt, rfl⟩ := List.getElem?_eq_some_iff.mp hi
    rw [List.getD_eq_getElem?_getD, List.getElem?_eq_getElem (hforall.1 ▸ hlt), Option.getD_some]
    exact hforall.2 i hlt (hforall.1 ▸ hlt)
  exact sort_of_compareTyped h hrows fun a b keysA keysB hA hB halike hrowA hrowB =>
    cmp_wordKeys halike (hat hA) (hat hB) hrowA hrowB

/-- **Every form of the keys sorts rows as comparing them column by column does**, the earlier row of the
file first between equals; so rows sort alike whichever form was prepared, or none. -/
theorem sort_forms_agree (hrows : RowsOf batches rows) :
    sortRowsByOrderKeysIndexed rows (RowOrder.over batches names) (rowSortKeys batches names) =
        (RowOrder.over batches names).sort rows ∧
      ∀ typed, typedKeysOf batches names = some typed →
        (SortKeys.typed typed).sort rows = (RowOrder.over batches names).sort rows ∧
        (SortKeys.packed (typed.map packedKeys)).sort rows = (RowOrder.over batches names).sort rows ∧
        ∀ words, typed.mapM wordKeys = some words →
          (SortKeys.words words).sort rows = (RowOrder.over batches names).sort rows := by
  refine ⟨?_, fun typed htyped => ?_⟩
  · rw [rowSortKeys]
    cases htyped : typedKeysOf batches names with
    | none => rfl
    | some typed =>
      obtain ⟨types, hkeys⟩ := typedKeysOf_eq_some htyped
      rw [Option.map_some]
      cases hwords : typed.mapM wordKeys with
      | some words => exact sort_words hkeys hrows hwords
      | none =>
        simp only [sortRowsByOrderKeysIndexed]
        split
        · exact sort_packed hkeys hrows
        · exact sort_typed hkeys hrows
  · obtain ⟨types, hkeys⟩ := typedKeysOf_eq_some htyped
    exact ⟨sort_typed hkeys hrows, sort_packed hkeys hrows, fun words => sort_words hkeys hrows⟩

/-- Two rows with a negative and a positive key. -/
def twoKeys : RecordBatch where
  numRows := 2
  columns := [("index", .scalar (.int .int16) [⟨3, true⟩, ⟨-1, true⟩])]
  lengths := by decide
  offsets := by decide

theorem sort_forms_agree_twoKeys :
    sortRowsByOrderKeysIndexed [(0, 0), (0, 1)] (RowOrder.over [twoKeys] ["index"])
        (rowSortKeys [twoKeys] ["index"]) =
      (RowOrder.over [twoKeys] ["index"]).sort [(0, 0), (0, 1)] := by
  refine (sort_forms_agree ?_).1
  rintro row (_ | ⟨_, _ | ⟨_, ⟨⟩⟩⟩)
  · exact ⟨twoKeys, rfl, by decide⟩
  · exact ⟨twoKeys, rfl, by decide⟩

end Sorting

end QueryEngine
