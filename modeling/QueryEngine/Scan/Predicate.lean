import QueryEngine.Output.Encoder

/-!
# Scan/Predicate — what a filter keeps of a stored column, and what statistics prove of it

A predicate is compiled against a declared type and meets a column at the type it is stored at.  It
answers a mask, or refuses the type; it never answers "no row" for a type it cannot read.  Beside
the mask stand two shortcuts over a row group's `(min, max)`: `canSkip`, no row of the group can
match, and `matchesEveryValue`, every row with a value does.
-/

open Kleene TwosComplement

namespace QueryEngine

/-- A predicate met a column stored at a type its values cannot be compared against. -/
structure UnsupportedType where
  expected : String
  stored : DataType
  deriving DecidableEq, Repr

/-- A mask, or the reason the column could not be masked. -/
abbrev MaskResult := Except UnsupportedType Mask

/-- What a filter over another type fails with. -/
def unsupported (expected : String) (array : Column) : UnsupportedType :=
  ⟨expected, array.dataType⟩

/-! ## Operands -/

/-- A scalar value a filter compares with. -/
inductive ScalarValue
  | boolean (v : Bool)
  | uint8 (v : BitVec 8)
  | uint16 (v : BitVec 16)
  | uint32 (v : BitVec 32)
  | uint64 (v : BitVec 64)
  | int16 (v : BitVec 16)
  | int64 (v : BitVec 64)
  | utf8 (v : Text)

/-- The value as a one-element integer list at its declared signedness, or nothing for the kinds
that are not integers. -/
def ScalarValue.asInts : ScalarValue → Option IntValues
  | .uint8 v => some (.unsigned [v.setWidth 64])
  | .uint16 v => some (.unsigned [v.setWidth 64])
  | .uint32 v => some (.unsigned [v.setWidth 64])
  | .uint64 v => some (.unsigned [v])
  | .int16 v => some (.signed [v.signExtend 64])
  | .int64 v => some (.signed [v])
  | .boolean _ | .utf8 _ => none

/-- A list of hashes of the texts a set was built from: what it answers for a text. -/
structure FilterSet where
  contains : Bytes → Bool
  canaries : List Text

/-- A bloom filter's needles.  `hash` is the third-party hash, seeded, of a needle's bytes. -/
structure BloomNeedles where
  needles : List Bytes
  numBytes : ℕ
  numHashes : ℕ
  hash : ℕ → Bytes → ℕ

/-- **A predicate over one column.** -/
inductive ArrayPredicate
  | eq (value : ScalarValue)
  | inList (values : Column)
  | bloom (needles : BloomNeedles)
  | inSet (sets : List FilterSet) (encoding : Option JsonEncoding)
  | anyOf (parts : List ArrayPredicate)
  | rangeGte (value : ScalarValue)
  | rangeLte (value : ScalarValue)
  | listContainsAnyU32 (values : List (BitVec 32))
  | listContainsAnyString (values : List Text)
  | never

/-! ## Shared kernels -/

/-- A mask that answers `value` for every row that has one. -/
def constant (column : IntColumn) (value : Bool) : Mask :=
  column.slots.map fun s => s.get?.map fun _ => value

/-- Membership of an integer column's values in a set of `storedKey`s. -/
def inListInt (array : Column) (keys : List (BitVec 64)) : Option Mask :=
  (IntColumn.resolve array).map fun column => column.slots.map fun s =>
    s.get?.map fun v => decide (storedKey (column.type.value v) ∈ keys)

/-- Membership of a text column's values in a set of strings. -/
def inListText (array : Column) (set : List Text) : Option Mask :=
  match array with
  | .scalar (.text _) rows => some (rows.map fun s => s.get?.map fun v => decide (v ∈ set))
  | _ => none

/-- Membership of a bytes column's values in a set of byte strings.  A null is no member. -/
def inListBytes (array : Column) (set : List Bytes) : Option Mask :=
  match array with
  | .scalar (.bytes _) rows =>
    some (rows.map fun s => some (s.get?.any fun v => decide (v.1 ∈ set)))
  | _ => none

/-- Where an integer threshold stands against a column at its stored type. -/
inductive Threshold
  | below
  | within (value : ℤ)
  | above
  | reinterpreted (value : ℤ) (bits : ℕ) (signed : Bool)
  deriving DecidableEq, Repr

/-- The first of a filter's values, as a number. -/
def IntValues.first (ints : IntValues) : ℤ := ints.numbers.headD 0

/-- The threshold of a filter at a stored type; nothing when the column is not an integer. -/
def Threshold.new (ints : IntValues) (stored : DataType) : Option Threshold :=
  (widthOf stored).map fun width =>
    let (bits, storedSigned) := width
    let value := ints.first
    if ints.isSigned ≠ storedSigned then .reinterpreted value bits ints.isSigned
    else
      let (min, max) : ℤ × ℤ :=
        if storedSigned then (-2 ^ (bits - 1), 2 ^ (bits - 1) - 1) else (0, 2 ^ bits - 1)
      if value < min then .below else if max < value then .above else .within value

/-- `a >= b` (`gte`) or `a <= b`. -/
def ordered {α : Type} [LE α] [DecidableLE α] (gte : Bool) (a b : α) : Bool :=
  if gte then decide (b ≤ a) else decide (a ≤ b)

/-- `array >= threshold` (`gte`) or `array <= threshold` over an integer column of any width, the
stored bits read at the declared signedness. -/
def compareInt (array : Column) (ints : IntValues) (gte : Bool) : Option Mask := do
  let column ← IntColumn.resolve array
  let threshold ← Threshold.new ints array.dataType
  some <|
    match threshold with
    | .below => constant column gte
    | .above => constant column (!gte)
    | .within value => column.slots.map fun s =>
      s.get?.map fun v => ordered gte (column.type.value v) value
    | .reinterpreted value bits signed => column.slots.map fun s =>
      s.get?.map fun v => ordered gte (declaredValue (column.type.value v) bits signed) value

/-- `array >= threshold` or `array <= threshold` over a text column, in byte order. -/
def compareText (array : Column) (threshold : Text) (gte : Bool) : Option Mask :=
  match array with
  | .scalar (.text _) rows =>
    some (rows.map fun s => s.get?.map fun v => ordered gte v.bytes threshold.bytes)
  | _ => none

/-! ## One predicate each -/

/-- A kernel's mask, or the refusal of the column. -/
def orUnsupported (mask : Option Mask) (expected : String) (array : Column) : MaskResult :=
  mask.elim (.error (unsupported expected array)) .ok

/-- `value == constant`.  A flag stored as a number is compared as one: `true` is 1. -/
def evaluateEq (value : ScalarValue) (array : Column) : MaskResult :=
  match value with
  | .boolean v =>
    match array with
    | .scalar .boolean rows => .ok (rows.map fun s => s.get?.map fun b => decide (b = v))
    | _ => orUnsupported (inListInt array [if v then 1 else 0]) "a boolean" array
  | .utf8 v => orUnsupported (inListText array [v]) "a string" array
  | other =>
    match other.asInts with
    | none => .error (unsupported "an integer" array)
    | some ints =>
      orUnsupported ((ints.storedKeys array.dataType).bind (inListInt array)) "an integer" array

/-- The text values of a list kept as text. -/
def stringSet : Column → Option (List Text)
  | .scalar (.text .utf8) rows => some (rows.map Slot.value)
  | _ => none

/-- The integer values of a list of integers, at the list's signedness. -/
def listedInts : Column → Option IntValues
  | .scalar (.int t) rows => some (.ofSlots t rows)
  | _ => none

/-- The byte strings of a list of fixed-width bytes. -/
def fixedBinarySet : Column → Option (List Bytes)
  | .scalar (.bytes (.fixedSizeBinary _)) rows => some (rows.map fun s => s.value.1)
  | _ => none

/-- `value IN (v1, v2, ...)`, the list typed by the catalog's declared type. -/
def evaluateInList (values : Column) (array : Column) : MaskResult :=
  match stringSet values, listedInts values, fixedBinarySet values with
  | some set, _, _ => orUnsupported (inListText array set) "a list of strings" array
  | none, some ints, _ =>
    orUnsupported ((ints.storedKeys array.dataType).bind (inListInt array)) "a list of integers"
      array
  | none, none, some set => orUnsupported (inListBytes array set) "a list of byte strings" array
  | none, none, none => .error (unsupported "a filter list" array)

/-- The bit a value's `n`-th hash sets in a filter of `numBits` bits: the bytes, then a `0xff`. -/
def bloomBit (hash : ℕ → Bytes → ℕ) (value : Bytes) (n numBits : ℕ) : ℕ :=
  hash n (value ++ [0xff]) % numBits

/-- Whether a stored filter has a bit set. -/
def hasBit (filter : Bytes) (bit : ℕ) : Bool := (filter.getD (bit / 8) 0).toNat.testBit (bit % 8)

/-- The byte mask of a needle at a width: every one of its bits. -/
def needleMask (p : BloomNeedles) (width : ℕ) (needle : Bytes) : Bytes :=
  (List.range p.numHashes).foldl (fun mask n =>
    let bit := bloomBit p.hash needle n (width * 8)
    mask.modify (bit / 8) fun b => b ||| (1 <<< UInt8.ofNat (bit % 8))) (List.replicate width 0)

/-- Whether any needle might be in a stored filter: none of its bits is missing there. -/
def anyMember (p : BloomNeedles) (filter : Bytes) : Bool :=
  if filter.isEmpty then false
  else p.needles.any fun needle =>
    ((needleMask p filter.length needle).zip filter).foldl
      (fun missing b => missing ||| (b.1 &&& ~~~b.2)) 0 == 0

/-- Each needle's bits in a filter of one width.  A needle's bits depend on the width and not on the row,
so they are kept from row to row while the width stays. -/
structure NeedleMasks where
  width : ℕ
  masks : List Bytes

namespace NeedleMasks

/-- No masks, of no width. -/
def new : NeedleMasks := ⟨0, []⟩

/-- The masks of some needles in a bloom of a width. -/
def build (p : BloomNeedles) (width : ℕ) : NeedleMasks := ⟨width, p.needles.map (needleMask p width)⟩

/-- Whether any needle might be in a stored filter, and the masks left for the next one. -/
def anyMember (p : BloomNeedles) (cache : NeedleMasks) (filter : Bytes) : Bool × NeedleMasks :=
  if filter.isEmpty then (false, cache)
  else
    let cache := if filter.length = cache.width then cache else build p filter.length
    (cache.masks.any fun mask =>
      (mask.zip filter).foldl (fun missing b => missing ||| (b.1 &&& ~~~b.2)) 0 == 0, cache)

/-- The answers for a column's filters, one after the other, `false` for a null. -/
def answers (p : BloomNeedles) : NeedleMasks → List (Option Bytes) → List Bool
  | _, [] => []
  | cache, none :: rows => false :: answers p cache rows
  | cache, some filter :: rows =>
    let found := cache.anyMember p filter
    found.1 :: answers p found.2 rows

end NeedleMasks

/-- Whether each row's bloom may hold one of the needles. -/
def evaluateBloom (p : BloomNeedles) (array : Column) : MaskResult :=
  match array with
  | .scalar (.bytes _) rows =>
    .ok ((NeedleMasks.new.answers p (rows.map fun s => s.get?.map Subtype.val)).map some)
  | _ => .error (unsupported "a bloom filter" array)

/-- A verdict per row, `false` for a null.  A value equal to the last one looked up takes its
verdict. -/
def verdicts (passes : Bytes → Bool) : Option (Bytes × Bool) → List (Option Bytes) → List Bool
  | _, [] => []
  | previous, none :: rows => false :: verdicts passes previous rows
  | none, some value :: rows =>
    passes value :: verdicts passes (some (value, passes value)) rows
  | some (last, verdict), some value :: rows =>
    if value = last then verdict :: verdicts passes (some (last, verdict)) rows
    else passes value :: verdicts passes (some (value, passes value)) rows

/-- Verdicts as a mask, the column's nulls kept. -/
def verdictMask (passes : Bytes → Bool) (rows : List (Option Bytes)) : Mask :=
  List.zipWith (fun row verdict => row.map fun _ => verdict) rows (verdicts passes none rows)

/-- Whether one of the sets passes a text. -/
def setsContain (sets : List FilterSet) (text : Bytes) : Bool := sets.any fun set => set.contains text

/-- A rendering without the quotes written around it. -/
def unquoted (text : Bytes) : Bytes := (text.drop 1).dropLast

/-- The text the response renders for a value passes the lookup of one of the sets. -/
def evaluateInSet (sets : List FilterSet) (encoding : Option JsonEncoding) (array : Column) :
    MaskResult :=
  match array with
  | .scalar (.text _) rows =>
    .ok (verdictMask (setsContain sets) (rows.map fun s => s.get?.map Text.bytes))
  | .scalar (.bytes k) rows =>
    let looked (render : Bytes → Bytes) : MaskResult :=
      match k with
      | .largeBinary => .error (unsupported "a set" array)
      | _ => .ok (verdictMask (fun b => setsContain sets (unquoted (render b)))
          (rows.map fun s => s.get?.map Subtype.val))
    match encoding with
    | some .hexBytes => looked encodeHexBytes
    | some .base58 => looked encodeBase58Bytes
    | _ => .error (unsupported "a set" array)
  | _ => .error (unsupported "a set" array)

/-- `array >= threshold` (`gte`) or `array <= threshold`, an integer compared by value at any stored
width and text in byte order. -/
def compare (threshold : ScalarValue) (array : Column) (gte : Bool) : MaskResult :=
  match threshold with
  | .utf8 v => orUnsupported (compareText array v gte) "a text threshold" array
  | .boolean _ => .error (unsupported "a range threshold" array)
  | other =>
    match other.asInts with
    | none => .error (unsupported "an integer threshold" array)
    | some ints => orUnsupported (compareInt array ints gte) "an integer threshold" array

/-- Whether a list column holds any of the values: an element the declared width cannot hold is no
id at all. -/
def evaluateContainsU32 (values : List (BitVec 32)) (array : Column) : MaskResult :=
  match array with
  | .list _ (.int t) rows => .ok (rows.map fun s => some (s.get?.any fun elements =>
      elements.any fun e => e.get?.any fun v =>
        decide (0 ≤ t.value v ∧ t.value v < 2 ^ 32) && decide (BitVec.ofInt 32 (t.value v) ∈ values)))
  | _ => .error (unsupported "a list of integers" array)

/-- Whether each row's list holds one of the texts. -/
def evaluateContainsString (values : List Text) (array : Column) : MaskResult :=
  match array with
  | .list _ (.text _) rows => .ok (rows.map fun s => some (s.get?.any fun elements =>
      elements.any fun e => e.get?.any fun v => decide (v ∈ values)))
  | _ => .error (unsupported "a list of strings" array)

/-- A predicate over a dictionary-encoded column: once over the dictionary, then mapped through the
keys.  A null key is false rather than null, and so is a key of a null. -/
def throughDictionary (evaluate : Column → MaskResult) (array : Column) : MaskResult :=
  match array with
  | .dictionary item values keys =>
    (evaluate (.scalar item values)).map fun mask =>
      keys.map fun k => some (k.get?.any fun i => keeps ((mask[i]?).join))
  | plain => evaluate plain

namespace ArrayPredicate

mutual

/-- **Evaluate a predicate against a column** — a mask, or the refusal of the type. -/
def evaluate : ArrayPredicate → Column → MaskResult
  | .eq value, array => throughDictionary (evaluateEq value) array
  | .inList values, array => throughDictionary (evaluateInList values) array
  | .bloom needles, array => throughDictionary (evaluateBloom needles) array
  | .inSet sets encoding, array => throughDictionary (evaluateInSet sets encoding) array
  | .anyOf parts, array =>
    (evaluateParts parts array none).map fun any => any.getD (Mask.all array.len false)
  | .rangeGte value, array => throughDictionary (compare value · true) array
  | .rangeLte value, array => throughDictionary (compare value · false) array
  | .listContainsAnyU32 values, array => evaluateContainsU32 values array
  | .listContainsAnyString values, array => evaluateContainsString values array
  | .never, array => .ok (Mask.all array.len false)

/-- Kleene's disjunction of the parts' masks on top of what came before them. -/
def evaluateParts : List ArrayPredicate → Column → Option Mask →
    Except UnsupportedType (Option Mask)
  | [], _, any => .ok any
  | part :: parts, array, any => do
    let mask ← evaluate part array
    evaluateParts parts array (some (any.elim mask fun prev => Mask.or prev mask))

end

end ArrayPredicate

end QueryEngine
