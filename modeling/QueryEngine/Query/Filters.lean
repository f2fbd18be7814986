import QueryEngine.Query.Surface
import QueryEngine.Scan.RowPredicate
import QueryEngine.Library.Numerals

/-!
# Query/Filters — what an item's filters compile to

Each filter of an item is a list of values, or of sets, under a name.  A name the table has a special filter for
compiles to what that filter says; any other is a column's, and compiles to membership in the list.  A list no
row can be in sinks the whole item.
-/

open Numerals Fallible

namespace QueryEngine

/-! ## Values of a request -/

/-- A JSON value. -/
inductive Json
  | null
  | bool (b : Bool)
  | int (n : ℤ)
  /-- A number that is no integer, as it is shown. -/
  | float (shown : String)
  | string (s : Text)
  | array (items : List Json)
  | object (fields : List (String × Json))

/-- Bytes as text. -/
def displayBytes (bytes : Bytes) : String := (String.fromUTF8? ⟨bytes.toArray⟩).getD ""

/-- A text, as a message spells it. -/
def Text.display (t : Text) : String := displayBytes t.bytes

/-- A text quoted, as JSON spells it. -/
def displayQuoted (s : String) : String := displayBytes (encodeJsonString s.toUTF8.data.toList)

namespace Json

/-- Whether it is a text. -/
def isString : Json → Bool
  | string _ => true
  | _ => false

/-- Whether it is a list. -/
def isArray : Json → Bool
  | array _ => true
  | _ => false

/-- Whether it is an object. -/
def isObject : Json → Bool
  | object _ => true
  | _ => false

/-- The text it is. -/
def asText : Json → Option Text
  | string s => some s
  | _ => none

/-- The truth value it is. -/
def asBool : Json → Option Bool
  | bool b => some b
  | _ => none

/-- The list it is. -/
def asArray : Json → Option (List Json)
  | array items => some items
  | _ => none

/-- The number of an unsigned word. -/
def asU64 : Json → Option (BitVec 64)
  | int n => if 0 ≤ n ∧ n < 2 ^ 64 then some (BitVec.ofInt 64 n) else none
  | _ => none

/-- The number of a word of either sign. -/
def asInteger : Json → Option ℤ
  | int n => if -2 ^ 63 ≤ n ∧ n < 2 ^ 64 then some n else none
  | _ => none

mutual

/-- A value as a message shows it. -/
def display : Json → String
  | null => "null"
  | bool b => toString b
  | int n => toString n
  | float shown => shown
  | string s => displayQuoted s.display
  | array items => "[" ++ ",".intercalate (displayItems items) ++ "]"
  | object fields => "\x7b" ++ ",".intercalate (displayFields fields) ++ "\x7d"

/-- Items of a list, each as a message spells it. -/
def displayItems : List Json → List String
  | [] => []
  | item :: items => item.display :: displayItems items

/-- Members of an object, each as a message spells it. -/
def displayFields : List (String × Json) → List String
  | [] => []
  | (key, value) :: fields => (displayQuoted key ++ ":" ++ value.display) :: displayFields fields

end

end Json

/-! ## Text of a value -/

/-- The text in lower case, its ASCII letters alone. -/
def Text.toAsciiLowercase (t : Text) : Text :=
  ⟨t.bytes.map fun b => if 65 ≤ b ∧ b ≤ 90 then b + 32 else b, by simpa using t.length_lt⟩

/-- The value of a hex digit, in either case. -/
def hexDigit (b : UInt8) : Option ℕ :=
  if 48 ≤ b ∧ b ≤ 57 then some (b.toNat - 48)
  else if 97 ≤ b ∧ b ≤ 102 then some (b.toNat - 87)
  else if 65 ≤ b ∧ b ≤ 70 then some (b.toNat - 55)
  else none

/-- The digits of a hex literal. -/
def hexDigits : Bytes → Option Bytes
  | 48 :: 120 :: digits => some digits
  | 48 :: 88 :: digits => some digits
  | _ => none

/-- Whether a text is `0x` and an even number of hex digits. -/
def isHexLiteral (s : Bytes) : Bool :=
  match hexDigits s with
  | some digits => digits.length % 2 == 0 && digits.all fun b => (hexDigit b).isSome
  | none => false

/-- The bytes of pairs of hex digits. -/
def hexDecode : Bytes → Bytes
  | hi :: lo :: rest => UInt8.ofNat (16 * (hexDigit hi).getD 0 + (hexDigit lo).getD 0) :: hexDecode rest
  | _ => []

/-- The bytes of a hex literal. -/
def parseHex (s : Bytes) : Option Bytes := if isHexLiteral s then (hexDigits s).map hexDecode else none

/-- A value as the column compares it. -/
def foldForColumn (s : Text) (desc : ColumnDescription) : Text := if desc.foldsCase then s.toAsciiLowercase else s

/-! ## Lists of values -/

/-- The refusal of a filter's value. -/
def invalidValue (column : String) (v : Json) (expected : String) : EngineError :=
  ⟨.invalidFilterValue, "invalid value " ++ v.display ++ " in filter on '" ++ column ++ "': expected " ++ expected⟩

/-- The texts of a list, folded. -/
def textValues (column : String) (values : List Json) (desc : ColumnDescription) : Result (List Text) :=
  values.mapM fun v =>
    match v.asText with
    | some s => .ok (foldForColumn s desc)
    | none => .error (invalidValue column v "a string")

/-- Split a list into byte strings written in hex, and numbers.  Text that is no hex is dropped. -/
def splitBinaryInList (column : String) : List Json → Result (List Bytes × List ℤ)
  | [] => .ok ([], [])
  | v :: values =>
    match v.asText, v.asInteger with
    | some s, _ => do
      let (hex, numbers) ← splitBinaryInList column values
      .ok ((parseHex s.bytes).toList ++ hex, numbers)
    | none, some n => do
      let (hex, numbers) ← splitBinaryInList column values
      .ok (hex, n :: numbers)
    | none, none => .error (invalidValue column v "a hex string or an integer")

/-- A column equal to a value. -/
def colEq (column : String) (value : ScalarValue) : ColumnPredicate := ⟨column, .eq value⟩

/-- A column equal to one of some values. -/
def colInList (column : String) (values : Column) : ColumnPredicate := ⟨column, .inList values⟩

/-- Membership in a list, or nothing when none of its values can match. -/
def inListOf (column : String) (values : Column) : Option ColumnPredicate :=
  if values.len = 0 then none else some (colInList column values)

/-- A list over an unsigned column: numbers in its range, and byte strings of its width. -/
def compileUnsignedInList (column : String) (values : List Json) (t : IntType) : Result (Option ColumnPredicate) := do
  let (hex, numbers) ← splitBinaryInList column values
  let fromHex := (hex.filter fun b => b.length = t.bits / 8).map fun b => (ofBeBytes b : ℤ)
  .ok (inListOf column (.scalar (.int t)
    ((fromHex ++ numbers.filter fun n => t.Holds n).map fun n => ⟨t.ofInt n, true⟩)))

/-- A list over a signed column: numbers in its range. -/
def compileSignedInList (column : String) (values : List Json) (t : IntType) (declared : String) :
    Result (Option ColumnPredicate) := do
  engineEnsure (!values.any Json.isString) .invalidFilterValue
    ("invalid value in filter on '" ++ column ++ "': a signed " ++ declared ++ " column takes numbers, not strings")
  let (_, numbers) ← splitBinaryInList column values
  .ok (inListOf column (.scalar (.int .int64)
    ((numbers.filter fun n => t.Holds n).map fun n => ⟨IntType.int64.ofInt n, true⟩)))

/-- Byte strings of one length, as a column. -/
def fixedBinaryColumn (size : ℕ) (values : List Bytes) : Column :=
  .scalar (.bytes (.fixedSizeBinary size))
    (values.filterMap fun b =>
      if h : (BytesType.fixedSizeBinary size).Admits b then some ⟨⟨b, h⟩, true⟩ else none)

/-- A list over a column of its type; nothing when no value of it can match. -/
def compileInList (column : String) (values : List Json) (desc : ColumnDescription) : Result (Option ColumnPredicate) :=
  match desc.dataType with
  | .string => do
    let vals ← textValues column values desc
    .ok (inListOf column (.scalar (.text .utf8) (vals.map fun s => ⟨s, true⟩)))
  | .uint8 => compileUnsignedInList column values .uint8
  | .uint16 => compileUnsignedInList column values .uint16
  | .uint32 => compileUnsignedInList column values .uint32
  | .uint64 => compileUnsignedInList column values .uint64
  | .int16 => compileSignedInList column values .int16 "int16"
  | .int32 => compileSignedInList column values .int32 "int32"
  | .int64 => compileSignedInList column values .int64 "int64"
  | .fixedBinary size => do
    let (hex, numbers) ← splitBinaryInList column values
    engineEnsure numbers.isEmpty .invalidFilterValue ("invalid value in filter on '" ++ column ++
      "': a fixed_binary_" ++ toString size ++ " column takes hex strings, not numbers")
    .ok (inListOf column (fixedBinaryColumn size hex))
  | .listUInt32 => do
    let numbers ← values.mapM fun v =>
      match v.asU64 with
      | some n => .ok n
      | none => .error (invalidValue column v "an unsigned integer")
    let vals := (numbers.filter fun n => n.toNat < 2 ^ 32).map fun n => n.setWidth 32
    .ok (if vals.isEmpty then none else some ⟨column, .listContainsAnyU32 vals⟩)
  | .listString => do
    let vals ← textValues column values desc
    .ok (if vals.isEmpty then none else some ⟨column, .listContainsAnyString vals⟩)
  | other => .error ⟨.invalidFilterValue, "unsupported column type " ++ other.display ++ " for IN-list filter on '" ++
      column ++ "'"⟩

/-- A filter's list.  A value written alone is a list of one. -/
def listOf (value : Json) : List Json := value.asArray.getD [value]

/-- Whether a bare value is one a filter can carry. -/
def isFilterScalar (value : Json) : Bool := value.isString || value.asInteger.isSome

/-! ## Filters -/

/-- What one filter compiles to. -/
inductive CompiledFilter
  /-- Every row passes. -/
  | every
  | predicate (p : ColumnPredicate)
  /-- A discriminator's alternatives; none where it admits every row. -/
  | groups (groups : Option (List (List ColumnPredicate)))
  /-- No row can pass. -/
  | unsatisfiable

/-- **Membership of a column in a filter's list.**  A boolean is a value of a boolean column alone. -/
def compileMembership (key column : String) (value : Json) (desc : ColumnDescription) : Result CompiledFilter :=
  match value.asBool.filter fun _ => desc.dataType = .boolean with
  | some b => .ok (.predicate (colEq column (.boolean b)))
  | none =>
    if isFilterScalar value || value.isArray then do
      match ← compileInList column (listOf value) desc with
      | some p => .ok (.predicate p)
      | none => .ok .unsatisfiable
    else .error ⟨.invalidFilterValue, "invalid filter value for '" ++ key ++
      "': expected array, boolean, number, or string"⟩

/-- The longest prefix a discriminator dispatches on. -/
def maxDiscriminatorBytes : ℕ := 16

/-- The bytes of a discriminator's values. -/
def discriminatorBytes (values : List Json) : Result (List Bytes) :=
  values.mapM fun v => do
    let s ← v.asText.elim (.error ⟨.invalidFilterValue, "discriminator value must be a string"⟩) .ok
    let bytes ← (parseHex s.bytes).elim
      (.error ⟨.invalidHex, "invalid hex in discriminator: " ++ s.display⟩) .ok
    engineEnsure (decide (bytes.length ≤ maxDiscriminatorBytes)) .discriminatorTooLong
      ("discriminator max " ++ toString maxDiscriminatorBytes ++ " bytes, got " ++ toString bytes.length)
    .ok bytes

/-- A discriminator's values of one length, as they are stored. -/
def discriminatorColumn (len : ℕ) (values : List Bytes) : Column :=
  let unsigned (t : IntType) := Column.scalar (.int t) (values.map fun b => ⟨t.ofInt (ofBeBytes b), true⟩)
  match len with
  | 1 => unsigned .uint8
  | 2 => unsigned .uint16
  | 4 => unsigned .uint32
  | 8 => unsigned .uint64
  | len => fixedBinaryColumn len values

/-- Dispatch hex prefixes to columns by length.  An empty prefix admits every row, once the rest are checked. -/
def compileDiscriminator (value : Json) (columns : Dict String) : Result (Option (List (List ColumnPredicate))) := do
  let values ← value.asArray.elim (.error ⟨.invalidFilterValue, "discriminator values must be an array"⟩) .ok
  let parsed ← discriminatorBytes values
  let prefixes := parsed.filter fun b => !b.isEmpty
  let groups ← (Lookup.sortDedup (prefixes.map List.length)).mapM fun len =>
    match columns.get? (toString len) with
    | some column =>
      .ok [colInList column (discriminatorColumn len (prefixes.filter fun b => b.length = len))]
    | none => .error ⟨.invalidFilterValue, "no discriminator column for length " ++ toString len⟩
  .ok (if parsed.any List.isEmpty then none else some groups)

/-- Probe a bloom column for values. -/
def compileBloomFilter (hash : ℕ → Bytes → ℕ) (value : Json) (column : String) (numBytes numHashes : ℕ) :
    Result ColumnPredicate := do
  let values ← value.asArray.elim (.error ⟨.invalidFilterValue, "bloom filter values must be an array"⟩) .ok
  let needles ← values.mapM fun v =>
    match v.asText with
    | some s => .ok s.bytes
    | none => .error (invalidValue column v "a string")
  if needles.isEmpty then .ok ⟨column, .never⟩
  else .ok ⟨column, .bloom ⟨needles, numBytes, numHashes, hash⟩⟩

/-- A bound on a column of unsigned words. -/
def compileRange (predicate : ScalarValue → ArrayPredicate) (value : Json) (column : String) (table : Table) :
    Result ColumnPredicate := do
  let desc ← (table.columns.get? column).elim
    (.error ⟨.unknownFilter, "range column '" ++ column ++ "' not found"⟩) .ok
  let n ← value.asU64.elim (.error ⟨.invalidFilterValue, "range filter value must be a number"⟩) .ok
  if desc.dataType = .uint64 then .ok ⟨column, predicate (.uint64 n)⟩
  else .error ⟨.invalidFilterValue, "range filter only supports UInt64 columns"⟩

/-- A lower bound. -/
def compileRangeGte : Json → String → Table → Result ColumnPredicate := compileRange .rangeGte

/-- An upper bound. -/
def compileRangeLte : Json → String → Table → Result ColumnPredicate := compileRange .rangeLte

/-- A flag that bounds a column below. -/
def compileGteConst (key : String) (value : Json) (column : String) (const : Text) (table : Table) :
    Result CompiledFilter := do
  let enabled ← value.asBool.elim (.error ⟨.invalidFilterValue,
    "filter '" ++ key ++ "' must be a boolean, got " ++ value.display⟩) .ok
  if enabled then
    if table.columns.contains column then .ok (.predicate ⟨column, .rangeGte (.utf8 const)⟩)
    else .error ⟨.unknownFilter, "gte_const column '" ++ column ++ "' not found"⟩
  else .ok .every

/-! ## Sets -/

/-- The request's declared sets. -/
abbrev Sets := Dict FilterSet

/-- The most sets one filter refers to. -/
def maxSetReferences : ℕ := 64

/-- The references a request's filters make to its sets. -/
structure References where
  /-- Every set a filter names. -/
  named : List String
  /-- The references of every list, a name counted once per list. -/
  count : ℕ

/-- Add one list's references. -/
def References.add (r : References) (key : String) (names : List String) : Result References := do
  let count := r.count + names.length
  engineEnsure (decide (count ≤ maxSetReferences)) .requestTooLarge ("filter '" ++ key ++ "' brings the request to " ++
    toString count ++ " set references, at most " ++ toString maxSetReferences ++ " allowed")
  .ok ⟨r.named ++ names, count⟩

/-- The sets a filter's list refers to, each once, in the order first named. -/
def setReferences (key : String) (value : Json) : Result (List String) :=
  (listOf value).foldlM (fun names element =>
    match element with
    | .object fields =>
      match fields with
      | [("set", .string name)] => .ok (if name.display ∈ names then names else names ++ [name.display])
      | _ => .error ⟨.invalidFilterValue, "invalid filter value for '" ++ key ++
          "': an object is a set reference, \x7b\"set\": \"<name>\"\x7d, and this one is " ++ element.display⟩
    | _ => .ok names) []

/-- What a set reference resolves against: the request's sets, and the fields it selects from the table. -/
structure SetScope where
  sets : Sets
  selected : List String

/-- Whether a column renders as the text a set holds. -/
def rendersText (desc : ColumnDescription) : Bool :=
  match desc.encoding, desc.dataType with
  | none, .string => true
  | some .hexBytes, .string | some .base58, .string => true
  | some .hexBytes, .fixedBinary _ | some .base58, .fixedBinary _ => true
  | _, _ => false

/-- A canary is a value the column can render, and the set holds it. -/
def checkCanary (canary : Text) (set : FilterSet) (name key : String) (desc : ColumnDescription) : Result Unit := do
  let value := foldForColumn canary desc
  let renderable := match desc.encoding with
    | some .hexBytes => isHexLiteral value.bytes
    | some .base58 => !value.bytes.isEmpty && value.bytes.all (base58Alphabet.contains ·)
    | _ => true
  let shown := "set '" ++ name ++ "' on filter '" ++ key ++ "': canary " ++ displayQuoted canary.display
  engineEnsure renderable .setCanaryMismatch (shown ++ " is no value the column can render")
  engineEnsure (set.contains value.bytes) .setCanaryMismatch (shown ++
    " is not in the set, so the set was built from " ++ "other text than the response renders, " ++ displayQuoted value.display ++
    " here: check case, the 0x prefix, the hash and its seed")

/-- The column a filter that takes a list reads. -/
def listColumn (key : String) (table : Table) : Result String :=
  match table.request.specialFilters.get? key with
  | none => .ok key
  | some (.columnAlias column) => .ok column
  | some _ => .error ⟨.invalidFilterValue, "filter '" ++ key ++ "' takes no list of values, so it takes no set"⟩

/-- A filter whose list refers to sets: a row passes when it equals a value of the list, or a set passes it. -/
def compileSetFilter (key : String) (value : Json) (names : List String) (table : Table) (scope : SetScope) :
    Result ColumnPredicate := do
  let column ← listColumn key table
  let desc ← (table.columns.get? column).elim
    (.error ⟨.unknownFilter, "column '" ++ column ++ "' not found in table"⟩) .ok
  engineEnsure (rendersText desc) .invalidFilterValue ("filter '" ++ key ++
    "' refers to a set, and a set stands in a " ++ "list of hexBytes, base58 or utf8 text, which column '" ++ column ++ "' does not render")
  let values := (listOf value).filter fun element => !element.isObject
  let listed ← if values.isEmpty then .ok none else compileInList column values desc
  let sets ← names.mapM fun name => (scope.sets.get? name).elim
    (.error ⟨.unknownSet, "filter '" ++ key ++ "' refers to set '" ++ name ++ "', which 'sets' does not declare"⟩) .ok
  let renders (field : String) : Bool := (table.fieldColumns field).any (· == column)
  if !scope.selected.any renders then
    let fields := (table.output.fields.filter renders).map snakeToCamel
    let remedy := if fields.isEmpty then "no field of the table renders it, so no set can filter on it"
      else "select " ++ " or ".intercalate fields ++ " to see, and remove, the rows the set passes that are not in it"
    .error ⟨.setFieldNotSelected, "filter '" ++ key ++ "' refers to a set, and no selected field renders column '" ++
      column ++ "': " ++ remedy⟩
  else
    (names.zip sets).forM fun p => p.2.canaries.forM fun canary => checkCanary canary p.2 p.1 key desc
    .ok ⟨column, match listed with
      | some p => .anyOf [p.predicate, .inSet sets desc.encoding]
      | none => .inSet sets desc.encoding⟩

/-! ## Items -/

/-- An item of a request on a table. -/
structure QueryItem where
  filters : List (String × Json)
  relations : List String
  /-- The alias the item was addressed through. -/
  aliasName : Option String

/-- What an item compiles to. -/
inductive CompiledItem
  /-- No row can match, whatever the chunk holds. -/
  | unsatisfiable
  | predicate (p : RowPredicate)

/-- The most values one bloom filter takes. -/
def maxBloomValues : ℕ := 10

/-- The most discriminator filters one item takes. -/
def maxDiscriminatorFilters : ℕ := 1

/-- The filters that address a discriminator: the special filter, and every column it dispatches to. -/
def discriminatorFamily (table : Table) : List String :=
  table.request.specialFilters.entries.flatMap fun f =>
    match f.2 with
    | .discriminator byLength => f.1 :: byLength.entries.map Prod.snd
    | _ => []

/-- Whether a key names a bloom filter of the table. -/
def isBloom (table : Table) (key : String) : Bool :=
  match table.request.specialFilters.get? key with
  | some (.bloom ..) => true
  | _ => false

/-- The bounds on an item that cost motivates, checked before anything compiles. -/
def checkItemLimits (item : QueryItem) (table : Table) : Result Unit := do
  let discriminators := item.filters.countP fun f => decide (f.1 ∈ discriminatorFamily table)
  engineEnsure (decide (discriminators ≤ maxDiscriminatorFilters)) .conflictingFilters ("item request carries " ++
    toString discriminators ++ " discriminator filters, at most " ++ toString maxDiscriminatorFilters ++
    " allowed: they narrow the same column family and only one of them can hold")
  item.filters.forM fun f =>
    if isBloom table f.1 then
      let len := (f.2.asArray.map List.length).getD 0
      engineEnsure (decide (len ≤ maxBloomValues)) .tooManyBloomValues
        ("filter '" ++ f.1 ++ "' carries " ++ toString len ++
        " values, at most " ++ toString maxBloomValues ++ " allowed")
    else .ok ()

/-- Whether a filter takes a list of values, where an empty list is one no row passes. -/
def takesValueList (table : Table) (key : String) : Bool :=
  match table.request.specialFilters.get? key with
  | some (.rangeGte _) | some (.rangeLte _) | some (.gteConst ..) => false
  | _ => true

/-- A special filter. -/
def compileSpecial (hash : ℕ → Bytes → ℕ) (key : String) (value : Json) (table : Table) :
    SpecialFilter → Result CompiledFilter
  | .discriminator byLength => (compileDiscriminator value byLength).map .groups
  | .bloom column bytes hashes => (compileBloomFilter hash value column bytes hashes).map .predicate
  | .rangeGte column => (compileRangeGte value column table).map .predicate
  | .rangeLte column => (compileRangeLte value column table).map .predicate
  | .columnAlias column => do
    let desc ← (table.columns.get? column).elim
      (.error ⟨.unknownFilter, "alias target column '" ++ column ++ "' not found"⟩) .ok
    compileMembership key column value desc
  | .gteConst column const => compileGteConst key value column const table

/-- A filter without references to sets: the table's special filter of the name, or else its column. -/
def compileFilter (hash : ℕ → Bytes → ℕ) (key : String) (value : Json) (table : Table) : Result CompiledFilter :=
  if takesValueList table key && decide (value.asArray.map List.length = some 0) then .ok .unsatisfiable
  else
    match table.request.specialFilters.get? key with
    | some special => compileSpecial hash key value table special
    | none => do
      let desc ← (table.columns.get? key).elim
        (.error ⟨.unknownFilter, "column '" ++ key ++ "' not found in table"⟩) .ok
      compileMembership key key value desc

/-- A filter, with the references it makes to sets. -/
def compileReference (hash : ℕ → Bytes → ℕ) (key : String) (value : Json) (table : Table) (scope : SetScope)
    (referred : References) : Result (CompiledFilter × References) := do
  let names ← setReferences key value
  if names.isEmpty then
    let compiled ← compileFilter hash key value table
    .ok (compiled, referred)
  else
    let referred ← referred.add key names
    let p ← compileSetFilter key value names table scope
    .ok (.predicate p, referred)

/-- What an item's filters have compiled to so far. -/
structure ItemState where
  columns : List ColumnPredicate
  groups : Option (List (List ColumnPredicate))
  unsatisfiable : Bool
  referred : References

/-- One filter more. -/
def ItemState.add (s : ItemState) (referred : References) : CompiledFilter → ItemState
  | .every => { s with referred := referred }
  | .predicate p => { s with columns := s.columns ++ [p], referred := referred }
  | .groups groups => { s with groups := groups, referred := referred }
  | .unsatisfiable => { s with unsatisfiable := true, referred := referred }

/-- The predicate of an item's filters.  Several alternatives share the filters beside them. -/
def ItemState.rowPredicate (s : ItemState) : RowPredicate :=
  match s.groups with
  | some groups => if 1 < groups.length then ⟨s.columns, groups⟩ else ⟨s.columns ++ groups.flatten, []⟩
  | none => ⟨s.columns, []⟩

/-- **Compile an item's filters.** -/
def compileItemPredicates (hash : ℕ → Bytes → ℕ) (item : QueryItem) (table : Table) (scope : SetScope)
    (referred : References) : Result (CompiledItem × References) := do
  checkItemLimits item table
  let s ← item.filters.foldlM (fun (s : ItemState) f => do
    let (compiled, referred) ← compileReference hash f.1 f.2 table scope s.referred
    .ok (s.add referred compiled)) ⟨[], none, false, referred⟩
  .ok (if s.unsatisfiable then .unsatisfiable else .predicate s.rowPredicate, s.referred)

/-! ## What an item's predicate asks -/

/-- Every filter of an item compiled, and what it compiled to is asked. -/
theorem compileItemPredicates_spec {hash : ℕ → Bytes → ℕ} {item : QueryItem} {table : Table} {scope : SetScope}
    {referred referred' : References} {p : RowPredicate}
    (h : compileItemPredicates hash item table scope referred = .ok (.predicate p, referred')) : ∀ f ∈ item.filters,
    ∃ before after compiled, compileReference hash f.1 f.2 table scope before = .ok (compiled, after) ∧
      compiled ≠ .unsatisfiable ∧ ∀ q, compiled = .predicate q → q ∈ p.columns := by
  unfold compileItemPredicates at h
  obtain ⟨_, -, h⟩ := bind_eq_ok.mp h
  obtain ⟨s, hs, h⟩ := bind_eq_ok.mp h
  have hrun := foldlM_run (P := fun done (s : ItemState) => s.unsatisfiable = false → ∀ f ∈ done,
    ∃ before after compiled, compileReference hash f.1 f.2 table scope before = .ok (compiled, after) ∧
      compiled ≠ .unsatisfiable ∧ ∀ q, compiled = .predicate q → q ∈ s.columns) hs (by simp) (by
    intro done mid f next _ hdone hnext hsat g hg
    obtain ⟨⟨compiled, after⟩, hcompiled, hnext⟩ := bind_eq_ok.mp hnext
    obtain rfl := Except.ok.inj hnext
    have hmid : mid.unsatisfiable = false ∧ compiled ≠ .unsatisfiable ∧ mid.columns ⊆
        (mid.add after compiled).columns := by
      cases compiled <;> simp_all [ItemState.add]
    rcases List.mem_append.mp hg with hg | hg
    · obtain ⟨before, after', compiled', hrun, hne, hasked⟩ := hdone hmid.1 g hg
      exact ⟨before, after', compiled', hrun, hne, fun q hq => hmid.2.2 (hasked q hq)⟩
    · obtain rfl := List.mem_singleton.mp hg
      refine ⟨_, after, compiled, hcompiled, hmid.2.1, fun q hq => ?_⟩
      rw [hq, ItemState.add]
      simp)
  obtain ⟨hitem, -⟩ := Prod.mk.inj (Except.ok.inj h)
  split at hitem
  · exact absurd hitem (by simp)
  · next hsat =>
    obtain rfl := CompiledItem.predicate.inj hitem
    intro f hf
    obtain ⟨before, after, compiled, hcompiled, hne, hasked⟩ := hrun (by simpa using hsat) f hf
    refine ⟨before, after, compiled, hcompiled, hne, fun q hq => ?_⟩
    have hmem := hasked q hq
    unfold ItemState.rowPredicate
    split
    · split
      · exact hmem
      · exact List.mem_append_left _ hmem
    · exact hmem

/-- A row an item keeps satisfies each of its columns. -/
theorem RowPredicate.holdsAt_column {p : RowPredicate} {q : ColumnPredicate} (hq : q ∈ p.columns) {batch : RecordBatch}
    {row : ℕ} (h : p.holdsAt batch row = true) : q.holdsAt batch row = true := by
  rw [RowPredicate.holdsAt, Bool.and_eq_true] at h
  exact List.all_eq_true.mp h.1 q hq

end QueryEngine
