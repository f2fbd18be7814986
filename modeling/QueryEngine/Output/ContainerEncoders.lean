import QueryEngine.Output.NestedEncoder

/-!
# Output/ContainerEncoders — lists and structs rendered row by row

A list's elements stand in one array for all its rows, between two offsets, and a struct's members in one each.
A container's encoder is resolved once and reads these in place; resolving one for each value writes the same bytes
(`encode_eq`).  So does a roll of columns, resolved once, a trailing list spliced into it
(`containers_render_per_value`).
-/

open Numerals

namespace QueryEngine

/-! ## Arrays -/

/-- A column as it is stored.  A list's offsets need not start at the first of its elements, nor end at the last. -/
inductive StoredArray
  | scalar (s : ScalarType) (rows : List (Slot s.Value))
  | float64 (rows : List (Slot (BitVec 64)))
  | timestamp (unit : TimeUnit) (rows : List (Slot ℤ))
  | decimal128 (scale : ℤ) (rows : List (Slot ℤ))
  | list (valid : List Bool) (offsets : List ℕ) (values : StoredArray)
  | struct (valid : List Bool) (fields : List (String × StoredArray))

namespace StoredArray

mutual

/-- The type an array is of. -/
def dataType : StoredArray → StoredType
  | scalar s _ => .scalar s
  | float64 _ => .float64
  | timestamp unit _ => .timestamp unit
  | decimal128 scale _ => .decimal128 scale
  | list _ _ values => .list values.dataType
  | struct _ fields => .struct (fieldTypes fields)

/-- The fields of a struct, each with its type. -/
def fieldTypes : List (String × StoredArray) → List (String × StoredType)
  | [] => []
  | (name, column) :: fields => (name, column.dataType) :: fieldTypes fields

end

/-- The rows an array has. -/
def len : StoredArray → ℕ
  | scalar _ rows => rows.length
  | float64 rows => rows.length
  | timestamp _ rows => rows.length
  | decimal128 _ rows => rows.length
  | list valid _ _ => valid.length
  | struct valid _ => valid.length

/-- Whether a row is null; nothing past the last. -/
def isNull : StoredArray → ℕ → Option Bool
  | scalar _ rows, row => (rows[row]?).map fun slot => !slot.valid
  | float64 rows, row => (rows[row]?).map fun slot => !slot.valid
  | timestamp _ rows, row => (rows[row]?).map fun slot => !slot.valid
  | decimal128 _ rows, row => (rows[row]?).map fun slot => !slot.valid
  | list valid _ _, row => (valid[row]?).map (!·)
  | struct valid _, row => (valid[row]?).map (!·)

/-- Some of a list's entries, from one on. -/
def window {α : Type} (xs : List α) (offset length : ℕ) : List α := (xs.drop offset).take length

mutual

/-- Some of an array's rows, from one on, its lists' elements left where they are. -/
def slice : StoredArray → ℕ → ℕ → StoredArray
  | scalar s rows, offset, length => scalar s (window rows offset length)
  | float64 rows, offset, length => float64 (window rows offset length)
  | timestamp unit rows, offset, length => timestamp unit (window rows offset length)
  | decimal128 scale rows, offset, length => decimal128 scale (window rows offset length)
  | list valid offsets values, offset, length =>
    list (window valid offset length) (window offsets offset (length + 1)) values
  | struct valid fields, offset, length => struct (window valid offset length) (sliceFields fields offset length)

/-- The fields of a struct, each cut to some rows. -/
def sliceFields : List (String × StoredArray) → ℕ → ℕ → List (String × StoredArray)
  | [], _, _ => []
  | (name, column) :: fields, offset, length => (name, column.slice offset length) :: sliceFields fields offset length

end

mutual

/-- **An array that Arrow accepts**: a list's offsets are ascending and within its elements, and a struct's members
have its rows. -/
inductive WellFormed : StoredArray → Prop
  | scalar {s : ScalarType} {rows : List (Slot s.Value)} : WellFormed (.scalar s rows)
  | float64 {rows : List (Slot (BitVec 64))} : WellFormed (.float64 rows)
  | timestamp {unit : TimeUnit} {rows : List (Slot ℤ)} : WellFormed (.timestamp unit rows)
  | decimal128 {scale : ℤ} {rows : List (Slot ℤ)} : WellFormed (.decimal128 scale rows)
  | list {valid : List Bool} {offsets : List ℕ} {values : StoredArray} : offsets.length = valid.length + 1 →
      offsets.Pairwise (· ≤ ·) → (∀ offset ∈ offsets, offset ≤ values.len) → WellFormed values →
      WellFormed (.list valid offsets values)
  | struct {valid : List Bool} {fields : List (String × StoredArray)} : FieldsWellFormed valid.length fields →
      WellFormed (.struct valid fields)

/-- Fields of so many rows, each well formed. -/
inductive FieldsWellFormed : ℕ → List (String × StoredArray) → Prop
  | nil {len : ℕ} : FieldsWellFormed len []
  | cons {len : ℕ} {name : String} {column : StoredArray} {fields : List (String × StoredArray)} : WellFormed column →
      column.len = len → FieldsWellFormed len fields → FieldsWellFormed len ((name, column) :: fields)

end

end StoredArray

/-! ## One value at a time -/

/-- What is written for a row of an array; nothing where it is not of the array's type, or has no such row. -/
abbrev ArrayEncoder := StoredArray → ℕ → Option Bytes

/-- An encoder of one row, at a row of an array without parts. -/
def onLeaf (encoder : ValueEncoder) : ArrayEncoder
  | .float64 rows, row => (rows[row]?).bind fun slot => encoder (if slot.valid then .float64 slot.value else .null)
  | .timestamp _ rows, row => (rows[row]?).bind fun slot => encoder
    (if slot.valid then .timestamp slot.value else .null)
  | .decimal128 _ rows, row => (rows[row]?).bind fun slot => encoder
    (if slot.valid then .decimal128 slot.value else .null)
  | _, _ => none

/-- A scalar's encoder. -/
def onScalars (encoder : EncoderFn) : ArrayEncoder
  | .scalar s rows, row => encoder (.scalar s rows) row
  | _, _ => none

/-- A row's text, `null` for a null. -/
def orNull (valid : List Bool) (row : ℕ) (text : Option Bytes) : Option Bytes :=
  (valid[row]?).bind fun v => if v then text else some jsonNull

/-- The elements of a list's row, from one to before another. -/
def span (offsets : List ℕ) (row : ℕ) : Option (List ℕ) :=
  (offsets[row]?).bind fun start => (offsets[row + 1]?).map fun stop => List.range' start (stop - start)

/-- A list's elements: integers are written without an encoder, others each through `element`. -/
def encodeList (values : StoredArray) (element : ℕ → Option Bytes) (elements : List ℕ) : Option Bytes :=
  match values with
  | .scalar (.int t) rows =>
    (elements.mapM fun i => (rows[i]?).map fun slot =>
      if slot.valid then decimal (t.value slot.value) else jsonNull).map arrayText
  | _ => (elements.mapM element).map arrayText

/-- Whether a type isRenderable, and everything inside it. -/
def isRenderable (t : StoredType) : Bool := (checkRenderable t).isOk

mutual

/-- One row through the encoder of its array's type, whose elements and members are each checked as they are met. -/
def encodeByType (ryu : BitVec 64 → Bytes) : ArrayEncoder
  | .scalar s rows, row =>
    match resolveScalarEncoder s with
    | .ok encoder => encoder (.scalar s rows) row
    | .error _ => none
  | .float64 rows, row => onLeaf (encodeFloat64 ryu) (.float64 rows) row
  | .timestamp unit rows, row => onLeaf (encodeTimestampPhysical unit) (.timestamp unit rows) row
  | .decimal128 _ _, _ => none
  | .list valid offsets values, row =>
    orNull valid row ((span offsets row).bind
      (encodeList values fun i => if isRenderable values.dataType then encodeByType ryu values i else none))
  | .struct valid fields, row => orNull valid row ((encodeFieldsAt ryu fields row).map objectText)

/-- A row of each member. -/
def encodeFieldsAt (ryu : BitVec 64 → Bytes) : List (String × StoredArray) → ℕ → Option (List Bytes)
  | [], _ => some []
  | (name, column) :: fields, row =>
    (if isRenderable column.dataType then encodeByType ryu column row else none).bind fun value =>
      (encodeFieldsAt ryu fields row).map fun rest => (keyPrefix (snakeToCamel name) ++ value) :: rest

end

/-- One element of a list or one member of a struct: its encoder is resolved for it alone. -/
def encodeValueAt (ryu : BitVec 64 → Bytes) : ArrayEncoder := fun array row =>
  if isRenderable array.dataType then encodeByType ryu array row else none

/-! ## Resolved once -/

/-- Whether an array is what the encoder of a type takes it for. -/
def StoredArray.isA : StoredType → StoredArray → Bool
  | .scalar s, .scalar t _ => decide (s = t)
  | .float64, .float64 _ => true
  | .timestamp unit, .timestamp stored _ => decide (unit = stored)
  | .decimal128 _, .decimal128 _ _ => true
  | .list _, .list _ _ _ => true
  | .struct _, .struct _ _ => true
  | _, _ => false

/-- An encoder of arrays of a type. -/
def ofType (t : StoredType) (encoder : ArrayEncoder) : ArrayEncoder := fun array row =>
  if array.isA t then encoder array row else none

/-- The encoder of a type, or the refusal. -/
def resolveValueAt (ryu : BitVec 64 → Bytes) (t : StoredType) : Except StoredType ArrayEncoder := do
  checkRenderable t
  .ok (ofType t (encodeByType ryu))

/-- An encoder from a type and the catalog's word on how it renders. -/
def resolvePlainAt (ryu : BitVec 64 → Bytes) (t : StoredType) (encoding : Option JsonEncoding)
    (declared : Option ColumnType) : Except StoredType ArrayEncoder :=
  match t with
  | .scalar s =>
    match resolveEncoderFn (.scalar s) encoding declared with
    | .ok encoder => .ok (onScalars encoder)
    | .error _ => .error t
  | .timestamp unit => .ok (ofType t (onLeaf (timestampEncoder unit encoding declared)))
  | .decimal128 scale => if encoding = some .decimalString then .ok
    (ofType t (onLeaf (encodeBignumDecimal scale))) else .error t
  | t => resolveValueAt ryu t

/-- An array's encoder: a function for an array of one type, or a tree of them. -/
inductive ResolvedEncoder
  | plain (encoder : ArrayEncoder)
  | struct (members : List (Bytes × ResolvedEncoder))
  | list (element : ResolvedEncoder)

mutual

/-- A row through its encoder. -/
def ResolvedEncoder.encode : ResolvedEncoder → ArrayEncoder
  | .plain encoder, array, row => encoder array row
  | .struct members, .struct valid fields, row =>
    orNull valid row ((ResolvedEncoder.encodeMembers members fields row).map objectText)
  | .list element, .list valid offsets values, row =>
    orNull valid row ((span offsets row).bind fun elements => (elements.mapM (element.encode values)).map arrayText)
  | _, _, _ => none

/-- The members of a struct's row, each through its encoder. -/
def ResolvedEncoder.encodeMembers : List (Bytes × ResolvedEncoder) → List (String × StoredArray) → ℕ →
    Option (List Bytes)
  | (key, member) :: members, (_, column) :: fields, row =>
    (member.encode column row).bind fun value => (ResolvedEncoder.encodeMembers members fields row).map fun rest =>
      (key ++ value) :: rest
  | _, _, _ => some []

end

mutual

/-- An array's encoder, from its type and the catalog's word on how it renders. -/
def resolveEncoderAt (ryu : BitVec 64 → Bytes) : StoredType → Option JsonEncoding → Option ColumnType → Members →
    Except StoredType ResolvedEncoder
  | .struct fields, _, _, members => (resolveMembersAt ryu fields members).map .struct
  | .list (.struct fields), _, _, members => (resolveMembersAt ryu fields members).map fun ms => .list (.struct ms)
  | t, encoding, declared, _ => (resolvePlainAt ryu t encoding declared).map .plain

/-- The encoders of a struct's fields. -/
def resolveMembersAt (ryu : BitVec 64 → Bytes) : List (String × StoredType) → Members →
    Except StoredType (List (Bytes × ResolvedEncoder))
  | [], _ => .ok []
  | (name, t) :: fields, members => do
    let member := members.get? name
    let encoder ← resolveEncoderAt ryu t (member.bind MemberDescription.encoding) none
      (member.bind MemberDescription.members)
    let rest ← resolveMembersAt ryu fields members
    .ok ((keyPrefix (snakeToCamel name), encoder) :: rest)

end

/-! ## Rolls -/

/-- A trailing list's elements, cut out of the array they stand in. -/
def rollList (ryu : BitVec 64 → Bytes) : StoredArray → ℕ → Option (List Bytes)
  | .list _ offsets values, row => (offsets[row]?).bind fun start => (offsets[row + 1]?).bind fun stop =>
    if start ≤ stop ∧ stop ≤ values.len then
      (List.range (stop - start)).mapM (encodeValueAt ryu (values.slice start (stop - start)))
    else none
  | _, _ => none

/-- Whether a type is a list. -/
def StoredType.isList : StoredType → Bool
  | .list _ => true
  | _ => false

/-- What a roll of columns holds for a row, one resolved encoder a value: up to the first null, a trailing list's
elements one after another. -/
def rollTexts (ryu : BitVec 64 → Bytes) (batch : List StoredArray) (row : ℕ) : List ℕ → Option (List Bytes)
  | [] => some []
  | index :: rest => (batch[index]?).bind fun column => (column.isNull row).bind fun null =>
    if null then some []
    else if rest.isEmpty && column.dataType.isList then rollList ryu column row
    else (encodeValueAt ryu column row).bind fun text => (rollTexts ryu batch row rest).map (text :: ·)

/-- A list of columns as a rolled array. -/
def encodeRoll (ryu : BitVec 64 → Bytes) (batch : List StoredArray) (row : ℕ) (indices : List ℕ) : Option Bytes :=
  (rollTexts ryu batch row indices).map arrayText

/-- A roll source as the catalog declares it. -/
structure RollSource where
  columnIndex : ℕ
  encoding : Option JsonEncoding
  declaredType : Option ColumnType

/-- A column of a roll, its encoder resolved. -/
inductive RollEncoder
  | value (index : ℕ) (encoder : ArrayEncoder)
  | splice (index : ℕ) (element : ArrayEncoder)

/-- A source's encoder, against the type its column is stored at. -/
def resolveRollSource (ryu : BitVec 64 → Bytes) (isLast : Bool) (source : RollSource) (t : StoredType) :
    Except StoredType RollEncoder :=
  match t, isLast with
  | .list item, true => (resolvePlainAt ryu item source.encoding none).map (.splice source.columnIndex)
  | t, _ => (resolvePlainAt ryu t source.encoding source.declaredType).map (.value source.columnIndex)

/-- A roll's encoders against a batch. -/
def resolveRollAt (ryu : BitVec 64 → Bytes) (batch : List StoredArray) :
    List RollSource → Option (Except StoredType (List RollEncoder))
  | [] => some (.ok [])
  | source :: rest => (batch[source.columnIndex]?).bind fun column =>
    match resolveRollSource ryu rest.isEmpty source column.dataType with
    | .error e => some (.error e)
    | .ok encoder => (resolveRollAt ryu batch rest).map fun others => others.map (encoder :: ·)

/-- A trailing list's elements, read in place. -/
def spliceList (element : ArrayEncoder) : StoredArray → ℕ → Option (List Bytes)
  | .list _ offsets values, row => (span offsets row).bind fun elements => elements.mapM (element values)
  | _, _ => none

/-- What a resolved roll holds for a row. -/
def resolvedTexts (batch : List StoredArray) (row : ℕ) : List RollEncoder → Option (List Bytes)
  | [] => some []
  | .value index encoder :: rest => (batch[index]?).bind fun column => (column.isNull row).bind fun null =>
    if null then some []
    else (encoder column row).bind fun text => (resolvedTexts batch row rest).map (text :: ·)
  | .splice index element :: rest => (batch[index]?).bind fun column => (column.isNull row).bind fun null =>
    if null then some []
    else (spliceList element column row).bind fun texts => (resolvedTexts batch row rest).map (texts ++ ·)

/-- A resolved roll's text. -/
def encodeResolvedRoll (batch : List StoredArray) (row : ℕ) (columns : List RollEncoder) : Option Bytes :=
  (resolvedTexts batch row columns).map arrayText

/-! ## What resolves renders alike -/

section Alike

variable {ryu : BitVec 64 → Bytes}

/-- A scalar's encoder writes each row's slot on its own. -/
theorem exists_render {s : ScalarType} {encoder : EncoderFn} (h : resolveScalarEncoder s = .ok encoder) :
    ∃ render : Slot s.Value → Bytes, ∀ rows row, encoder (.scalar s rows) row = (rows[row]?).map render := by
  cases s with
  | boolean =>
    obtain rfl := Except.ok.inj h
    exact ⟨_, fun _ _ => rfl⟩
  | int t =>
    have hencoder : encoder = encodeStored t := by cases t <;> exact (Except.ok.inj h).symm
    refine ⟨fun slot => if slot.valid then decimal (t.value slot.value) else jsonNull, fun rows row => ?_⟩
    rw [hencoder, encodeStored, Column.dataType, if_pos rfl, encodeInt, intSlot, IntColumn.resolve, Option.bind_some,
      Option.map_map]
    rfl
  | text k =>
    cases k with
    | utf8 =>
      obtain rfl := Except.ok.inj h
      exact ⟨_, fun _ _ => rfl⟩
    | _ => cases h
  | bytes k =>
    cases k with
    | largeBinary => cases h
    | _ =>
      obtain rfl := Except.ok.inj h
      exact ⟨fun slot => if slot.valid then encodeHexBytes slot.value.1 else jsonNull, fun _ _ => by
        simp [encodeBinaryValue, encodeFixedBinaryValue, encodeBytes]⟩
  | other name => cases h

/-- Where the catalog's word on how a type renders changes nothing. -/
def StoredType.AsStored (encoding : Option JsonEncoding) (declared : Option ColumnType) : StoredType → Prop
  | .scalar _ => encoding = none
  | .timestamp _ => encoding = none ∧ declared ≠ some .timestampMillisecond
  | .decimal128 _ => encoding = none
  | _ => True

theorem StoredType.asStored_none (t : StoredType) : t.AsStored none none := by
  cases t <;> simp [StoredType.AsStored]

theorem timestampEncoder_none {unit : TimeUnit} {declared : Option ColumnType}
    (h : declared ≠ some .timestampMillisecond) : timestampEncoder unit none declared =
      encodeTimestampPhysical unit := by
  unfold timestampEncoder
  rw [if_neg fun h => nomatch h.1]
  cases unit <;> split <;> first | rfl | exact absurd rfl h

/-- **A type that renders as it is stored is rendered by the encoder of its values.** -/
theorem resolvePlainAt_eq {array : StoredArray} {encoding : Option JsonEncoding} {declared : Option ColumnType}
    {encoder : ArrayEncoder} (hstored : array.dataType.AsStored encoding declared)
    (h : resolvePlainAt ryu array.dataType encoding declared = .ok encoder) :
    isRenderable array.dataType = true ∧ ∀ row, encoder array row = encodeByType ryu array row := by
  have hvalue {t : StoredType} (hisA : array.isA t = true) (h : resolveValueAt ryu t = .ok encoder) :
      isRenderable t = true ∧ ∀ row, encoder array row = encodeByType ryu array row := by
    obtain ⟨_, hcheck, h⟩ := Fallible.bind_eq_ok.mp h
    obtain rfl := Except.ok.inj h
    exact ⟨by rw [isRenderable, hcheck]; rfl, fun row => if_pos hisA⟩
  cases array with
  | scalar s rows =>
    obtain rfl : encoding = none := hstored
    rw [StoredArray.dataType, resolvePlainAt] at h
    split at h
    · next resolved hresolve =>
      obtain rfl := Except.ok.inj h
      have hresolve : resolveScalarEncoder s = .ok resolved := hresolve
      refine ⟨by rw [StoredArray.dataType, isRenderable, checkRenderable, hresolve]; rfl, fun row => ?_⟩
      rw [encodeByType, hresolve]
      rfl
    · cases h
  | float64 rows => exact hvalue rfl h
  | timestamp unit rows =>
    obtain ⟨rfl, hdeclared⟩ : encoding = none ∧ declared ≠ some .timestampMillisecond := hstored
    obtain rfl := Except.ok.inj h
    refine ⟨rfl, fun row => ?_⟩
    rw [ofType, if_pos (by simp [StoredArray.isA, StoredArray.dataType]), timestampEncoder_none hdeclared, encodeByType]
  | decimal128 scale rows =>
    obtain rfl : encoding = none := hstored
    rw [StoredArray.dataType, resolvePlainAt, if_neg (by simp)] at h
    cases h
  | list valid offsets values => exact hvalue rfl h
  | struct valid fields => exact hvalue rfl h

/-- A column that is neither a struct nor a list of them. -/
theorem resolveEncoderAt_plain {array : StoredArray} {encoding : Option JsonEncoding} {declared : Option ColumnType}
    {encoder : ResolvedEncoder} (hstruct : ∀ fields, array.dataType = .struct fields → False)
    (hlist : ∀ fields, array.dataType = .list (.struct fields) → False)
    (hstored : array.dataType.AsStored encoding declared)
    (h : resolveEncoderAt ryu array.dataType encoding declared none = .ok encoder) :
    isRenderable array.dataType = true ∧ ∀ row, encoder.encode array row = encodeByType ryu array row := by
  rw [resolveEncoderAt] at h
  · obtain ⟨plain, hplain, rfl⟩ := Fallible.map_eq_ok.mp h
    obtain ⟨hrenders, hencode⟩ := resolvePlainAt_eq hstored hplain
    exact ⟨hrenders, fun row => by rw [ResolvedEncoder.encode, hencode]⟩
  · exact hstruct
  · exact hlist

theorem isOk_checkFields_cons {name : String} {t : StoredType} {fields : List (String × StoredType)} :
    (checkFields ((name, t) :: fields)).isOk = (isRenderable t && (checkFields fields).isOk) := by
  rw [checkFields, isRenderable]
  cases checkRenderable t <;> rfl

mutual

/-- **A resolved tree of encoders writes what each value's own encoder writes.** -/
theorem resolveEncoderAt_eq : ∀ (array : StoredArray) {encoding : Option JsonEncoding} {declared : Option ColumnType}
    {encoder : ResolvedEncoder}, array.dataType.AsStored encoding declared →
    resolveEncoderAt ryu array.dataType encoding declared none = .ok encoder →
    isRenderable array.dataType = true ∧ ∀ row, encoder.encode array row = encodeByType ryu array row
  | .struct valid fields, _, _, encoder, _, h => by
    rw [StoredArray.dataType, resolveEncoderAt] at h
    obtain ⟨resolved, hresolve, rfl⟩ := Fallible.map_eq_ok.mp h
    obtain ⟨hfields, hencode⟩ := resolveMembersAt_eq fields hresolve
    refine ⟨hfields, fun row => ?_⟩
    rw [ResolvedEncoder.encode, encodeByType, hencode]
  | .list valid offsets (.struct inner fields), _, _, encoder, _, h => by
    rw [StoredArray.dataType, StoredArray.dataType, resolveEncoderAt] at h
    obtain ⟨resolved, hresolve, rfl⟩ := Fallible.map_eq_ok.mp h
    obtain ⟨hfields, hencode⟩ := resolveMembersAt_eq fields hresolve
    refine ⟨hfields, fun row => ?_⟩
    have helement : (ResolvedEncoder.struct resolved).encode (.struct inner fields) = fun i =>
        if isRenderable (StoredArray.struct inner fields).dataType then encodeByType ryu (.struct inner fields) i
        else none := by
      funext i
      rw [ResolvedEncoder.encode, encodeByType, hencode]
      exact (if_pos hfields).symm
    rw [ResolvedEncoder.encode, encodeByType, helement]
    rfl
  | .scalar _ _, _, _, _, hstored, h => resolveEncoderAt_plain nofun nofun hstored h
  | .float64 _, _, _, _, hstored, h => resolveEncoderAt_plain nofun nofun hstored h
  | .timestamp _ _, _, _, _, hstored, h => resolveEncoderAt_plain nofun nofun hstored h
  | .decimal128 _ _, _, _, _, hstored, h => resolveEncoderAt_plain nofun nofun hstored h
  | .list _ _ (.scalar _ _), _, _, _, hstored, h => resolveEncoderAt_plain nofun nofun hstored h
  | .list _ _ (.float64 _), _, _, _, hstored, h => resolveEncoderAt_plain nofun nofun hstored h
  | .list _ _ (.timestamp _ _), _, _, _, hstored, h => resolveEncoderAt_plain nofun nofun hstored h
  | .list _ _ (.decimal128 _ _), _, _, _, hstored, h => resolveEncoderAt_plain nofun nofun hstored h
  | .list _ _ (.list _ _ _), _, _, _, hstored, h => resolveEncoderAt_plain nofun nofun hstored h

theorem resolveMembersAt_eq : ∀ (fields : List (String × StoredArray)) {resolved : List (Bytes × ResolvedEncoder)},
    resolveMembersAt ryu (StoredArray.fieldTypes fields) none = .ok resolved →
    (checkFields (StoredArray.fieldTypes fields)).isOk = true ∧
      ∀ row, ResolvedEncoder.encodeMembers resolved fields row = encodeFieldsAt ryu fields row
  | [], _, h => by
    rw [StoredArray.fieldTypes, resolveMembersAt] at h
    obtain rfl := Except.ok.inj h
    exact ⟨rfl, fun row => by rw [ResolvedEncoder.encodeMembers, encodeFieldsAt]; nofun⟩
  | (name, column) :: fields, _, h => by
    rw [StoredArray.fieldTypes, resolveMembersAt] at h
    obtain ⟨encoder, hencoder, h⟩ := Fallible.bind_eq_ok.mp h
    obtain ⟨rest, hrest, h⟩ := Fallible.bind_eq_ok.mp h
    obtain rfl := Except.ok.inj h
    obtain ⟨hcolumn, hencode⟩ := resolveEncoderAt_eq column (StoredType.asStored_none _) hencoder
    obtain ⟨hfields, hothers⟩ := resolveMembersAt_eq fields hrest
    refine ⟨by rw [StoredArray.fieldTypes, isOk_checkFields_cons, hcolumn, hfields]; rfl, fun row => ?_⟩
    rw [ResolvedEncoder.encodeMembers, encodeFieldsAt, hencode, hothers, if_pos hcolumn]

end

end Alike

/-! ## Rows in range -/

section Rows

variable {ryu : BitVec 64 → Bytes}

theorem isSome_mapM_of_forall {α β : Type} {f : α → Option β} {xs : List α} (h : ∀ x ∈ xs, (f x).isSome = true) :
    (xs.mapM f).isSome = true := by
  rw [Fallible.isSome_mapM, List.all_eq_true]
  exact h

theorem isSome_orNull {valid : List Bool} {row : ℕ} {text : Option Bytes} (hrow : row < valid.length)
    (htext : text.isSome = true) : (orNull valid row text).isSome = true := by
  rw [orNull, List.getElem?_eq_getElem hrow, Option.bind_some]
  split
  · exact htext
  · rfl

/-- A list's row has its elements, all within the array they stand in. -/
theorem span_eq {valid : List Bool} {offsets : List ℕ} {values : StoredArray} {row : ℕ}
    (h : (StoredArray.list valid offsets values).WellFormed) (hrow : row < valid.length) :
    ∃ start stop, offsets[row]? = some start ∧ offsets[row + 1]? = some stop ∧ start ≤ stop ∧ stop ≤ values.len ∧
      span offsets row = some (List.range' start (stop - start)) := by
  cases h with
  | list hlength hascending hwithin _ =>
    have hstart : row < offsets.length := by omega
    have hstop : row + 1 < offsets.length := by omega
    refine ⟨offsets[row], offsets[row + 1], List.getElem?_eq_getElem hstart, List.getElem?_eq_getElem hstop,
      List.pairwise_iff_getElem.mp hascending row (row + 1) hstart hstop (Nat.lt_succ_self row),
      hwithin _ (List.getElem_mem hstop), ?_⟩
    rw [span, List.getElem?_eq_getElem hstart, List.getElem?_eq_getElem hstop]
    rfl

theorem isSome_encodeList {values : StoredArray} {element : ℕ → Option Bytes} {elements : List ℕ}
    (hwithin : ∀ i ∈ elements, i < values.len) (helement : ∀ i ∈ elements, (element i).isSome = true) :
    (encodeList values element elements).isSome = true := by
  rw [encodeList.eq_def]
  split
  · next t rows =>
    rw [Option.isSome_map]
    refine isSome_mapM_of_forall fun i hi => ?_
    rw [Option.isSome_map, List.getElem?_eq_getElem (hwithin i hi)]
    rfl
  · rw [Option.isSome_map]
    exact isSome_mapM_of_forall helement

theorem isRenderable_cons {name : String} {t : StoredType} {fields : List (String × StoredType)}
    (h : (checkFields ((name, t) :: fields)).isOk = true) :
    isRenderable t = true ∧ (checkFields fields).isOk = true := by
  rwa [isOk_checkFields_cons, Bool.and_eq_true] at h

mutual

/-- **A row of an array that Arrow accepts is written.** -/
theorem isSome_encodeByType : ∀ (array : StoredArray), array.WellFormed → isRenderable array.dataType = true →
    ∀ {row : ℕ}, row < array.len → (encodeByType ryu array row).isSome = true
  | .scalar s rows, _, hrenders, row, hrow => by
    rw [StoredArray.dataType, isRenderable, checkRenderable] at hrenders
    rw [encodeByType]
    cases hresolve : resolveScalarEncoder s with
    | error e =>
      rw [hresolve] at hrenders
      cases hrenders
    | ok encoder =>
      obtain ⟨render, hrender⟩ := exists_render hresolve
      dsimp only
      rw [hrender, Option.isSome_map, List.getElem?_eq_getElem hrow]
      rfl
  | .float64 rows, _, _, row, hrow => by
    rw [encodeByType, onLeaf, List.getElem?_eq_getElem hrow, Option.bind_some]
    split <;> rfl
  | .timestamp unit rows, _, _, row, hrow => by
    rw [encodeByType, onLeaf, List.getElem?_eq_getElem hrow, Option.bind_some]
    cases unit <;> split <;> rfl
  | .decimal128 scale rows, _, hrenders, _, _ => by cases hrenders
  | .list valid offsets values, hformed, hrenders, row, hrow => by
    obtain ⟨start, stop, -, -, -, hstop, hspan⟩ := span_eq hformed hrow
    have hvalues : values.WellFormed := by
      cases hformed with
      | list _ _ _ hvalues => exact hvalues
    have hrenders : isRenderable values.dataType = true := hrenders
    rw [encodeByType, hspan, Option.bind_some]
    have hwithin : ∀ i ∈ List.range' start (stop - start), i < values.len := fun i hi => by
      have hi := List.mem_range'_1.mp hi
      omega
    refine isSome_orNull hrow (isSome_encodeList hwithin fun i hi => ?_)
    rw [if_pos hrenders]
    exact isSome_encodeByType values hvalues hrenders (hwithin i hi)
  | .struct valid fields, hformed, hrenders, row, hrow => by
    rw [encodeByType]
    refine isSome_orNull hrow ?_
    rw [Option.isSome_map]
    cases hformed with
    | struct hfields => exact isSome_encodeFieldsAt fields hfields hrenders hrow

theorem isSome_encodeFieldsAt : ∀ (fields : List (String × StoredArray)) {len : ℕ},
    StoredArray.FieldsWellFormed len fields → (checkFields (StoredArray.fieldTypes fields)).isOk = true →
    ∀ {row : ℕ}, row < len → (encodeFieldsAt ryu fields row).isSome = true
  | [], _, _, _, _, _ => by
    rw [encodeFieldsAt]
    rfl
  | (name, column) :: fields, len, hfields, hrenders, row, hrow => by
    obtain ⟨hcolumn, hrest⟩ := isRenderable_cons hrenders
    cases hfields with
    | cons hformed hlen hothers =>
      obtain ⟨text, htext⟩ := Option.isSome_iff_exists.mp
        (isSome_encodeByType column hformed hcolumn (hlen.symm ▸ hrow : row < column.len))
      have hothers := isSome_encodeFieldsAt fields hothers hrest hrow
      rw [encodeFieldsAt, if_pos hcolumn, htext, Option.bind_some, Option.isSome_map]
      exact hothers

end

end Rows

/-! ## Rows of a slice -/

section Slices

variable {ryu : BitVec 64 → Bytes} {offset length : ℕ}

theorem getElem?_window {α : Type} (xs : List α) {i : ℕ} (h : i < length) :
    (StoredArray.window xs offset length)[i]? = xs[offset + i]? := by
  rw [StoredArray.window, List.getElem?_take_of_lt h, List.getElem?_drop]

mutual

theorem dataType_slice : ∀ (array : StoredArray) (offset length : ℕ), (array.slice offset length).dataType =
    array.dataType
  | .scalar _ _, _, _ => rfl
  | .float64 _, _, _ => rfl
  | .timestamp _ _, _, _ => rfl
  | .decimal128 _ _, _, _ => rfl
  | .list _ _ _, _, _ => rfl
  | .struct _ fields, offset, length => congrArg StoredType.struct (fieldTypes_sliceFields fields offset length)

theorem fieldTypes_sliceFields : ∀ (fields : List (String × StoredArray)) (offset length : ℕ),
    StoredArray.fieldTypes (StoredArray.sliceFields fields offset length) = StoredArray.fieldTypes fields
  | [], _, _ => rfl
  | (name, column) :: fields, offset, length => by
    rw [StoredArray.sliceFields, StoredArray.fieldTypes, StoredArray.fieldTypes, dataType_slice column,
      fieldTypes_sliceFields fields]

end

mutual

/-- **A slice's rows are the array's.** -/
theorem encodeByType_slice : ∀ (array : StoredArray) {row : ℕ}, row < length →
    encodeByType ryu (array.slice offset length) row = encodeByType ryu array (offset + row)
  | .scalar s rows, row, hrow => by
    rw [StoredArray.slice, encodeByType, encodeByType]
    cases hresolve : resolveScalarEncoder s with
    | error e => rfl
    | ok encoder =>
      obtain ⟨render, hrender⟩ := exists_render hresolve
      dsimp only
      rw [hrender, hrender, getElem?_window rows hrow]
  | .float64 rows, row, hrow => by
    rw [StoredArray.slice, encodeByType, encodeByType, onLeaf, onLeaf, getElem?_window rows hrow]
  | .timestamp unit rows, row, hrow => by
    rw [StoredArray.slice, encodeByType, encodeByType, onLeaf, onLeaf, getElem?_window rows hrow]
  | .decimal128 scale rows, _, _ => by
    rw [StoredArray.slice, encodeByType, encodeByType]
  | .list valid offsets values, row, hrow => by
    rw [StoredArray.slice, encodeByType, encodeByType, orNull, orNull, getElem?_window valid hrow, span, span,
      getElem?_window offsets (by omega), getElem?_window offsets (by omega), Nat.add_assoc]
  | .struct valid fields, row, hrow => by
    rw [StoredArray.slice, encodeByType, encodeByType, orNull, orNull, getElem?_window valid hrow,
      encodeFieldsAt_slice fields hrow]

theorem encodeFieldsAt_slice : ∀ (fields : List (String × StoredArray)) {row : ℕ}, row < length →
    encodeFieldsAt ryu (StoredArray.sliceFields fields offset length) row = encodeFieldsAt ryu fields (offset + row)
  | [], _, _ => by rw [StoredArray.sliceFields, encodeFieldsAt, encodeFieldsAt]
  | (name, column) :: fields, row, hrow => by
    rw [StoredArray.sliceFields, encodeFieldsAt, encodeFieldsAt, dataType_slice column, encodeByType_slice column hrow,
      encodeFieldsAt_slice fields hrow]

end

theorem encodeValueAt_slice (array : StoredArray) {row : ℕ} (h : row < length) :
    encodeValueAt ryu (array.slice offset length) row = encodeValueAt ryu array (offset + row) := by
  rw [encodeValueAt, encodeValueAt, dataType_slice, encodeByType_slice array h]

end Slices

/-! ## The same bytes -/

/-- A source whose declared type and encoding change nothing of how its column renders. -/
def RollSource.AsStored (batch : List StoredArray) (source : RollSource) : Prop :=
  source.encoding = none ∧ ∀ rows unit, batch[source.columnIndex]? = some (.timestamp unit rows) →
    source.declaredType ≠ some .timestampMillisecond

section Rolls

variable {ryu : BitVec 64 → Bytes} {batch : List StoredArray} {numRows row : ℕ}

theorem asStored_of_source {source : RollSource} {column : StoredArray} (h : source.AsStored batch)
    (hcolumn : batch[source.columnIndex]? = some column) :
    column.dataType.AsStored source.encoding source.declaredType := by
  cases column with
  | scalar s rows => exact h.1
  | timestamp unit rows => exact ⟨h.1, h.2 rows unit hcolumn⟩
  | decimal128 scale rows => exact h.1
  | float64 rows => exact True.intro
  | list valid offsets values => exact True.intro
  | struct valid fields => exact True.intro

/-- An array's own encoder, resolved, writes its values. -/
theorem resolvePlainAt_eq_encodeValueAt {array : StoredArray} {encoding : Option JsonEncoding}
    {declared : Option ColumnType} {encoder : ArrayEncoder} (hstored : array.dataType.AsStored encoding declared)
    (h : resolvePlainAt ryu array.dataType encoding declared = .ok encoder) :
    isRenderable array.dataType = true ∧ encoder array = encodeValueAt ryu array := by
  obtain ⟨hrenders, hencode⟩ := resolvePlainAt_eq hstored h
  refine ⟨hrenders, funext fun row => ?_⟩
  rw [hencode, encodeValueAt, if_pos hrenders]

theorem mapM_congr_of_forall {α β : Type} {f g : α → Option β} : ∀ {xs : List α}, (∀ x ∈ xs, f x = g x) →
    xs.mapM f = xs.mapM g
  | [], _ => rfl
  | x :: xs, h => by
    rw [List.mapM_cons, List.mapM_cons, h x List.mem_cons_self,
      mapM_congr_of_forall fun y hy => h y (List.mem_cons_of_mem _ hy)]

/-- **A list spliced in place is its elements cut out.** -/
theorem spliceList_eq {valid : List Bool} {offsets : List ℕ} {values : StoredArray} {element : ArrayEncoder}
    (hformed : (StoredArray.list valid offsets values).WellFormed) (hrow : row < valid.length)
    (h : resolvePlainAt ryu values.dataType none none = .ok element) :
    spliceList element (.list valid offsets values) row = rollList ryu (.list valid offsets values) row ∧
      (rollList ryu (.list valid offsets values) row).isSome = true := by
  obtain ⟨start, stop, hstart, hstop, hle, hwithin, hspan⟩ := span_eq hformed hrow
  obtain ⟨hrenders, helement⟩ := resolvePlainAt_eq_encodeValueAt (StoredType.asStored_none _) h
  have hvalues : values.WellFormed := by
    cases hformed with
    | list _ _ _ hvalues => exact hvalues
  have hslice : ∀ i ∈ List.range (stop - start),
      encodeValueAt ryu (values.slice start (stop - start)) i = encodeValueAt ryu values (start + i) := fun i hi =>
    encodeValueAt_slice values (List.mem_range.mp hi)
  rw [spliceList, rollList, hspan, hstart, hstop, Option.bind_some, Option.bind_some, Option.bind_some,
    if_pos ⟨hle, hwithin⟩, helement]
  constructor
  · rw [List.range'_eq_map_range, List.mapM_map]
    exact (mapM_congr_of_forall hslice).symm
  · refine isSome_mapM_of_forall fun i hi => ?_
    rw [hslice i hi, encodeValueAt, if_pos hrenders]
    exact isSome_encodeByType values hvalues hrenders (by have hi := List.mem_range.mp hi; omega)

/-- A source's encoder splices a trailing list, and else writes the column's value. -/
theorem resolveRollSource_cases {isLast : Bool} {source : RollSource} {t : StoredType} {encoder : RollEncoder}
    (h : resolveRollSource ryu isLast source t = .ok encoder) :
    (∃ item element, t = .list item ∧ isLast = true ∧ resolvePlainAt ryu item source.encoding none = .ok element ∧
      encoder = .splice source.columnIndex element) ∨
    (isLast && t.isList) = false ∧ ∃ plain,
      resolvePlainAt ryu t source.encoding source.declaredType = .ok plain ∧ encoder =
        .value source.columnIndex plain := by
  unfold resolveRollSource at h
  split at h
  · next item =>
    obtain ⟨element, helement, rfl⟩ := Fallible.map_eq_ok.mp h
    exact .inl ⟨item, element, rfl, rfl, helement, rfl⟩
  · next hnot =>
    obtain ⟨plain, hplain, rfl⟩ := Fallible.map_eq_ok.mp h
    refine .inr ⟨?_, plain, hplain, rfl⟩
    cases isLast with
    | false => rfl
    | true =>
      cases t with
      | list item => exact absurd rfl (hnot item rfl)
      | _ => rfl

theorem exists_isNull {column : StoredArray} (h : row < column.len) : ∃ null, column.isNull row = some null := by
  refine Option.isSome_iff_exists.mp ?_
  cases column <;> exact Option.isSome_map.trans (Option.isSome_iff_exists.mpr ⟨_, List.getElem?_eq_getElem h⟩)

/-- A roll's last list, spliced in place, is its elements cut out. -/
theorem resolvedTexts_splice {source : RollSource} {column : StoredArray} {item : StoredType}
    {element : ArrayEncoder} (hcolumn : batch[source.columnIndex]? = some column) (hformed : column.WellFormed)
    (hrow : row < column.len) (hitem : column.dataType = .list item)
    (helement : resolvePlainAt ryu item none none = .ok element) :
    resolvedTexts batch row [.splice source.columnIndex element] = rollTexts ryu batch row [source.columnIndex] ∧
      (rollTexts ryu batch row [source.columnIndex]).isSome = true := by
  obtain ⟨null, hnull⟩ := exists_isNull hrow
  cases column with
  | list valid offsets values =>
    obtain rfl : values.dataType = item := StoredType.list.inj hitem
    obtain ⟨hsplice, hlist⟩ := spliceList_eq hformed hrow helement
    obtain ⟨texts, htexts⟩ := Option.isSome_iff_exists.mp hlist
    rw [resolvedTexts, rollTexts, hcolumn, Option.bind_some, Option.bind_some, hnull, Option.bind_some,
      Option.bind_some, hsplice, htexts]
    cases null with
    | true => exact ⟨rfl, rfl⟩
    | false => exact ⟨congrArg some (List.append_nil texts), rfl⟩
  | _ => cases hitem

/-- **A roll resolved once holds what one resolved for each value holds.** -/
theorem resolvedTexts_eq (hbatch : ∀ column ∈ batch, column.WellFormed ∧ column.len = numRows) (hrow : row < numRows) :
    ∀ {sources : List RollSource} {columns : List RollEncoder}, (∀ source ∈ sources, source.AsStored batch) →
      resolveRollAt ryu batch sources = some (.ok columns) →
      resolvedTexts batch row columns = rollTexts ryu batch row (sources.map RollSource.columnIndex) ∧
        (rollTexts ryu batch row (sources.map RollSource.columnIndex)).isSome = true
  | [], columns, _, h => by
    obtain rfl := Except.ok.inj (Option.some.inj h)
    exact ⟨rfl, rfl⟩
  | source :: sources, columns, hstored, h => by
    obtain ⟨column, hcolumn, h⟩ := Option.bind_eq_some_iff.mp h
    obtain ⟨hformed, hlen⟩ := hbatch column (List.mem_of_getElem? hcolumn)
    have hone := hstored source List.mem_cons_self
    split at h
    · cases h
    · next encoder hencoder =>
      obtain ⟨others, hothers, h⟩ := Option.map_eq_some_iff.mp h
      obtain ⟨rest, rfl, rfl⟩ := Fallible.map_eq_ok.mp h
      obtain ⟨hsame, hsome⟩ := resolvedTexts_eq hbatch hrow
        (fun other hother => hstored other (List.mem_cons_of_mem _ hother)) hothers
      rcases resolveRollSource_cases hencoder with ⟨item, element, hitem, hlast, helement, rfl⟩ |
        ⟨hplace, plain, hplain, rfl⟩
      · obtain rfl := List.isEmpty_iff.mp hlast
        obtain rfl := Except.ok.inj (Option.some.inj hothers)
        rw [hone.1] at helement
        exact resolvedTexts_splice hcolumn hformed (hlen.symm ▸ hrow) hitem helement
      · obtain ⟨hrenders, hencode⟩ := resolvePlainAt_eq_encodeValueAt (asStored_of_source hone hcolumn) hplain
        obtain ⟨null, hnull⟩ := exists_isNull (hlen.symm ▸ hrow : row < column.len)
        have htext : (encodeByType ryu column row).isSome = true :=
          isSome_encodeByType column hformed hrenders (hlen.symm ▸ hrow)
        rw [List.map_cons, resolvedTexts, rollTexts, hcolumn, Option.bind_some, Option.bind_some, hnull,
          Option.bind_some, Option.bind_some, hencode, hsame, List.isEmpty_map, hplace, encodeValueAt, if_pos hrenders]
        cases null with
        | true => exact ⟨rfl, rfl⟩
        | false =>
          refine ⟨rfl, ?_⟩
          obtain ⟨text, htext⟩ := Option.isSome_iff_exists.mp htext
          simp only [Bool.false_eq_true, if_false, htext, Option.bind_some, Option.isSome_map]
          exact hsome

/-- **A container's resolved encoder writes what `encodeValueAt` writes, and so does a roll's**, for every row: a roll
whose sources have no encoding, and none of which is a timestamp declared in milliseconds.  Neither misses a row. -/
theorem containers_render_per_value (ryu : BitVec 64 → Bytes) :
    (∀ (array : StoredArray) (encoding : Option JsonEncoding) (declared : Option ColumnType)
      (encoder : ResolvedEncoder),
      array.WellFormed → array.dataType.AsStored encoding declared →
      resolveEncoderAt ryu array.dataType encoding declared none = .ok encoder → ∀ row < array.len,
        ∃ text, encoder.encode array row = some text ∧ encodeValueAt ryu array row = some text) ∧
    ∀ (batch : List StoredArray) (numRows : ℕ) (sources : List RollSource) (columns : List RollEncoder),
      (∀ column ∈ batch, column.WellFormed ∧ column.len = numRows) → (∀ source ∈ sources, source.AsStored batch) →
      resolveRollAt ryu batch sources = some (.ok columns) → ∀ row < numRows,
        ∃ text, encodeResolvedRoll batch row columns = some text ∧
          encodeRoll ryu batch row (sources.map RollSource.columnIndex) = some text := by
  refine ⟨fun array encoding declared encoder hformed hstored h row hrow => ?_,
    fun batch numRows sources columns hbatch hstored h row hrow => ?_⟩
  · obtain ⟨hrenders, hencode⟩ := resolveEncoderAt_eq array hstored h
    obtain ⟨text, htext⟩ := Option.isSome_iff_exists.mp (isSome_encodeByType array hformed hrenders hrow)
    exact ⟨text, (hencode row).trans htext, (if_pos hrenders).trans htext⟩
  · obtain ⟨hsame, hsome⟩ := resolvedTexts_eq hbatch hrow hstored h
    obtain ⟨texts, htexts⟩ := Option.isSome_iff_exists.mp hsome
    exact ⟨arrayText texts, by rw [encodeResolvedRoll, hsame, htexts]; rfl, by rw [encodeRoll, htexts]; rfl⟩

/-- A second, in a list of structs of it. -/
def nestedSecond : StoredArray := .list [true] [1, 2] (.struct [true, true]
  [("block_time", .timestamp .second [⟨7, true⟩, ⟨1, true⟩])])

theorem wellFormed_nestedSecond : nestedSecond.WellFormed :=
  .list rfl (by decide) (by decide) (.struct (.cons .timestamp rfl .nil))

theorem containers_render_per_value_nestedSecond :
    (∃ encoder, resolveEncoderAt (fun _ => []) nestedSecond.dataType none none none = .ok encoder ∧ ∃ text,
      encoder.encode nestedSecond 0 = some text ∧ encodeValueAt (fun _ => []) nestedSecond 0 = some text) ∧
    ∃ columns, resolveRollAt (fun _ => []) [nestedSecond] [⟨0, none, none⟩] = some (.ok columns) ∧ ∃ text,
      encodeResolvedRoll [nestedSecond] 0 columns = some text ∧
        encodeRoll (fun _ => []) [nestedSecond] 0 [0] = some text := by
  obtain ⟨hencode, hroll⟩ := containers_render_per_value fun _ => []
  refine ⟨⟨_, rfl, hencode nestedSecond none none _ wellFormed_nestedSecond True.intro rfl 0 (by decide)⟩, _, rfl,
    hroll [nestedSecond] 1 [⟨0, none, none⟩] _ ?_ ?_ rfl 0 (by decide)⟩
  · rintro column (_ | ⟨_, ⟨⟩⟩)
    exact ⟨wellFormed_nestedSecond, rfl⟩
  · rintro source (_ | ⟨_, ⟨⟩⟩)
    exact ⟨rfl, fun _ _ _ => by decide⟩

/-- A second declared in milliseconds, without an encoding, is scaled by the roll that was resolved for it. -/
theorem not_containers_render_per_value : ¬∀ (ryu : BitVec 64 → Bytes) (batch : List StoredArray) (numRows : ℕ)
    (sources : List RollSource) (columns : List RollEncoder),
    (∀ column ∈ batch, column.WellFormed ∧ column.len = numRows) → (∀ source ∈ sources, source.encoding = none) →
    resolveRollAt ryu batch sources = some (.ok columns) → ∀ row < numRows,
      encodeResolvedRoll batch row columns = encodeRoll ryu batch row (sources.map RollSource.columnIndex) := by
  intro h
  have hsame := h (fun _ => []) [.timestamp .second [⟨1, true⟩]] 1 [⟨0, none, some .timestampMillisecond⟩] _
    (List.forall_mem_singleton.mpr ⟨.timestamp, rfl⟩) (List.forall_mem_singleton.mpr rfl) rfl 0 Nat.zero_lt_one
  exact absurd hsame (by decide)

end Rolls

end QueryEngine
