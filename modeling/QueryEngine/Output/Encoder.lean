import QueryEngine.Catalog
import QueryEngine.Library.Numerals

/-!
# Output/Encoder — the bytes a response writes for a stored value

An encoder is resolved once, from the type a column is stored at and the catalog's word on how it
renders, and then writes one row at a time.  `none` stands for a panic: an encoder run on a column
of another type than it was resolved against, or on a row the column does not have.
-/

open Numerals

namespace QueryEngine

/-- The bytes an encoder appends for one row of a column. -/
abbrev EncoderFn := Column → ℕ → Option Bytes

/-- A column stored at a type no encoder renders. -/
structure Unrenderable where
  dataType : DataType
  deriving DecidableEq, Repr

/-- The JSON spelling of a row without a value. -/
def jsonNull : Bytes := [110, 117, 108, 108]

/-- A double quote. -/
def quote : UInt8 := 34

/-- Bytes between double quotes. -/
def quoted (text : Bytes) : Bytes := quote :: text ++ [quote]

/-! ## Text -/

/-- Each byte lane holding one. -/
def escapeOnes : BitVec 64 := 0x0101010101010101#64

/-- Each byte lane's top bit. -/
def escapeHigh : BitVec 64 := 0x8080808080808080#64

/-- Whether JSON escapes any of the bytes: a control character, a quote or a backslash.  Eight bytes
at a time, then the rest. -/
def needsEscape : Bytes → Bool
  | b₀ :: b₁ :: b₂ :: b₃ :: b₄ :: b₅ :: b₆ :: b₇ :: rest =>
    let word := BitVec.ofNat 64 (ofLeBytes [b₀, b₁, b₂, b₃, b₄, b₅, b₆, b₇])
    let zeroByte (w : BitVec 64) : Bool := (w - escapeOnes) &&& ~~~w &&& escapeHigh != 0
    let belowSpace (w : BitVec 64) : Bool :=
      (w - escapeOnes * 0x20#64) &&& ~~~w &&& escapeHigh != 0
    belowSpace word || zeroByte (word ^^^ (escapeOnes * 34#64)) ||
      zeroByte (word ^^^ (escapeOnes * 92#64)) || needsEscape rest
  | rest => rest.any fun b => b < 0x20 || b == 34 || b == 92

/-- A byte of a JSON string as the serializer escapes it. -/
def escapeByte (b : UInt8) : Bytes :=
  if b = 34 then [92, 34]
  else if b = 92 then [92, 92]
  else if b = 8 then [92, 98]
  else if b = 9 then [92, 116]
  else if b = 10 then [92, 110]
  else if b = 12 then [92, 102]
  else if b = 13 then [92, 114]
  else if b < 0x20 then [92, 117, 48, 48] ++ hexByte b
  else [b]

/-- A JSON-escaped string with quotes. -/
def encodeJsonString (s : Bytes) : Bytes :=
  if needsEscape s then quoted (s.flatMap escapeByte) else quoted s

/-- `0x` and lower-case hex, quoted. -/
def encodeHexBytes (bytes : Bytes) : Bytes := quoted ([48, 120] ++ hex bytes)

/-- The Bitcoin alphabet: no two of its characters look alike. -/
def base58Alphabet : Bytes :=
  [49, 50, 51, 52, 53, 54, 55, 56, 57,
   65, 66, 67, 68, 69, 70, 71, 72, 74, 75, 76, 77, 78, 80, 81, 82, 83, 84, 85, 86, 87, 88, 89, 90,
   97, 98, 99, 100, 101, 102, 103, 104, 105, 106, 107, 109, 110, 111, 112, 113, 114, 115, 116,
   117, 118, 119, 120, 121, 122]

/-- One byte pushed into the digits: each digit takes the carry in, and what the last one leaves is
pushed as further digits. -/
def base58Push : ℕ → List ℕ → List ℕ
  | carry, [] => digits 58 carry
  | carry, digit :: rest =>
    let carry := carry + digit * 256
    carry % 58 :: base58Push (carry / 58) rest

/-- Base58 of a byte string, quoted: a `1` for each leading zero byte, then the digits. -/
def encodeBase58Bytes (bytes : Bytes) : Bytes :=
  let zeros := (bytes.takeWhile (· == 0)).length
  let ds := (bytes.drop zeros).foldl (fun ds byte => base58Push byte.toNat ds) []
  quoted (List.replicate zeros 49 ++ ds.reverse.map fun d => base58Alphabet.getD d 0)

/-! ## The stored value of an integer column -/

/-- The slot of a row of an integer column, with the type it is stored at. -/
def intSlot (array : Column) (row : ℕ) : Option (Σ t : IntType, Slot t.Native) :=
  (IntColumn.resolve array).bind fun column =>
    (column.slots[row]?).map fun slot => ⟨column.type, slot⟩

/-- The stored value read through its unsigned twin. -/
def unsignedAt {t : IntType} (b : t.Native) : ℕ := b.toNat

/-- The stored value read through its signed twin: a value and its twin carry the same bits. -/
def signedAt {t : IntType} (b : t.Native) : ℤ := b.toInt

/-- An integer encoder: `null` for a null, and what `write` writes for the bits of a value. -/
def encodeInt (write : (t : IntType) → t.Native → Bytes) : EncoderFn := fun array row =>
  (intSlot array row).map fun ⟨t, slot⟩ => if slot.valid then write t slot.value else jsonNull

/-- The encoder of one stored integer type. -/
def encodeStored (stored : IntType) : EncoderFn := fun array row =>
  if array.dataType = .scalar (.int stored) then
    encodeInt (fun t b => decimal (t.value b)) array row
  else none

def encodeUInt8 : EncoderFn := encodeStored .uint8
def encodeUInt16 : EncoderFn := encodeStored .uint16
def encodeUInt32 : EncoderFn := encodeStored .uint32
def encodeUInt64 : EncoderFn := encodeStored .uint64
def encodeInt8 : EncoderFn := encodeStored .int8
def encodeInt16 : EncoderFn := encodeStored .int16
def encodeInt32 : EncoderFn := encodeStored .int32
def encodeInt64 : EncoderFn := encodeStored .int64

/-- A value as a quoted string number, at the array's own signedness. -/
def encodeBignum : EncoderFn := encodeInt fun t b => quoted (decimal (t.value b))

/-- A Solana transaction version: `-1` is `"legacy"`, anything else a number. -/
def encodeSolanaTxVersion : EncoderFn := encodeInt fun _ b =>
  if signedAt b = -1 then [34, 108, 101, 103, 97, 99, 121, 34] else decimal (signedAt b)

/-- A quoted hex number zero-padded to `width` bytes.  A stored value too wide for the declared type
is rendered at the width it actually needs. -/
def encodeHexNumber (width : ℕ) : EncoderFn := encodeInt fun _ b =>
  if unsignedAt b < 256 ^ width then encodeHexBytes (beBytes width (unsignedAt b))
  else encodeHexBytes (beBytes 8 (unsignedAt b))

def encodeHexNumberU8 : EncoderFn := encodeHexNumber 1
def encodeHexNumberU16 : EncoderFn := encodeHexNumber 2
def encodeHexNumberU32 : EncoderFn := encodeHexNumber 4
def encodeHexNumberU64 : EncoderFn := encodeHexNumber 8

/-! ## The other scalars -/

/-- `true` or `false`. -/
def encodeBoolean : EncoderFn
  | .scalar .boolean rows, row => (rows[row]?).map fun slot =>
    if slot.valid then
      if slot.value then [116, 114, 117, 101] else [102, 97, 108, 115, 101]
    else jsonNull
  | _, _ => none

/-- A text, quoted and escaped. -/
def encodeUtf8Value : EncoderFn
  | .scalar (.text .utf8) rows, row => (rows[row]?).map fun slot =>
    if slot.valid then encodeJsonString slot.value.bytes else jsonNull
  | _, _ => none

/-- A text column that already holds JSON: passed through without quoting. -/
def encodeJsonPassthrough : EncoderFn
  | .scalar (.text .utf8) rows, row => (rows[row]?).map fun slot =>
    if slot.valid && !slot.value.bytes.isEmpty then slot.value.bytes else jsonNull
  | _, _ => none

/-- A bytes encoder of one bytes type. -/
def encodeBytes (render : Bytes → Bytes) (stored : BytesType) : EncoderFn
  | .scalar (.bytes k) rows, row =>
    if k = stored then
      (rows[row]?).map fun slot => if slot.valid then render slot.value.1 else jsonNull
    else none
  | _, _ => none

/-- Bytes, as hex. -/
def encodeBinaryValue : EncoderFn := encodeBytes encodeHexBytes .binary
/-- Bytes of one size, as hex. -/
def encodeFixedBinaryValue (size : ℕ) : EncoderFn :=
  encodeBytes encodeHexBytes (.fixedSizeBinary size)
/-- Bytes, as base58. -/
def encodeBase58Binary : EncoderFn := encodeBytes encodeBase58Bytes .binary
/-- Bytes of one size, as base58. -/
def encodeBase58FixedBinary (size : ℕ) : EncoderFn :=
  encodeBytes encodeBase58Bytes (.fixedSizeBinary size)

/-! ## Resolution -/

/-- The encoder of a stored scalar type, or the refusal. -/
def resolveScalarEncoder : ScalarType → Except Unrenderable EncoderFn
  | .boolean => .ok encodeBoolean
  | .int .int8 => .ok encodeInt8
  | .int .uint8 => .ok encodeUInt8
  | .int .uint16 => .ok encodeUInt16
  | .int .uint32 => .ok encodeUInt32
  | .int .uint64 => .ok encodeUInt64
  | .int .int16 => .ok encodeInt16
  | .int .int32 => .ok encodeInt32
  | .int .int64 => .ok encodeInt64
  | .text .utf8 => .ok encodeUtf8Value
  | .bytes .binary => .ok encodeBinaryValue
  | .bytes (.fixedSizeBinary size) => .ok (encodeFixedBinaryValue size)
  | other => .error ⟨.scalar other⟩

/-- Elements between brackets, commas between them. -/
def encodeElements (element : ℕ → Option Bytes) (len : ℕ) : Option Bytes :=
  ((List.range len).mapM element).map fun parts => [91] ++ List.intercalate [44] parts ++ [93]

/-- A list, each element through an encoder of its own. -/
def encodeListWith (element : EncoderFn) : EncoderFn
  | .list false item rows, row => (rows[row]?).bind fun slot =>
    if slot.valid then
      encodeElements (element (.scalar item slot.value)) slot.value.length
    else some jsonNull
  | _, _ => none

/-- A list as it is stored: the element encoder is resolved per value. -/
def encodeListValue : EncoderFn
  | .list large item rows, row =>
    match resolveScalarEncoder item with
    | .ok element => encodeListWith element (.list large item rows) row
    | .error _ => none
  | _, _ => none

/-- The encoder for a physical type, or the refusal.  A list is renderable only if its elements
are. -/
def resolveValueEncoder : DataType → Except Unrenderable EncoderFn
  | .scalar s => resolveScalarEncoder s
  | .list false item => (resolveScalarEncoder item).map fun _ => encodeListValue
  | other => .error ⟨other⟩

/-- `hexNumber` pads to the declared width, and to the physical one where the catalog declares no
unsigned integer. -/
def resolveHexNumberEncoder (dataType : DataType) (declaredType : Option ColumnType) :
    Option EncoderFn :=
  match widthOf dataType with
  | none => none
  | some (bits, _) =>
    match declaredType with
    | some .uint8 => some encodeHexNumberU8
    | some .uint16 => some encodeHexNumberU16
    | some .uint32 => some encodeHexNumberU32
    | some .uint64 => some encodeHexNumberU64
    | _ =>
      match bits / 8 with
      | 1 => some encodeHexNumberU8
      | 2 => some encodeHexNumberU16
      | 4 => some encodeHexNumberU32
      | _ => some encodeHexNumberU64

/-- `hexBytes` — `0x` and lower-case hex, whatever the column is stored as. -/
def resolveHexBytesEncoder : DataType → Option EncoderFn
  | .scalar (.text .utf8) => some encodeUtf8Value
  | .scalar (.bytes .binary) => some encodeBinaryValue
  | .scalar (.bytes (.fixedSizeBinary size)) => some (encodeFixedBinaryValue size)
  | _ => none

/-- `base58`, same idea: the encoding names what the value *is*. -/
def resolveBase58Encoder : DataType → Option EncoderFn
  | .scalar (.text .utf8) => some encodeUtf8Value
  | .scalar (.bytes .binary) => some encodeBase58Binary
  | .scalar (.bytes (.fixedSizeBinary size)) => some (encodeBase58FixedBinary size)
  | _ => none

/-- A column's encoder, from its physical type and the catalog's word on how it renders.  Where the
declared encoder's array type is not the one stored, the physical encoder decides. -/
def resolveEncoderFn (dataType : DataType) (encoding : Option JsonEncoding)
    (declaredType : Option ColumnType) : Except Unrenderable EncoderFn :=
  let declared : Option EncoderFn :=
    match encoding with
    | some .decimalString => if isInteger dataType then some encodeBignum else none
    | some .hexNumber => resolveHexNumberEncoder dataType declaredType
    | some .jsonVerbatim =>
      if dataType = .scalar (.text .utf8) then some encodeJsonPassthrough else none
    | some .solanaTxVersion => if isInteger dataType then some encodeSolanaTxVersion else none
    | some .timestampMillisecond => none
    | some .hexBytes => resolveHexBytesEncoder dataType
    | some .base58 => resolveBase58Encoder dataType
    | none => none
  match declared with
  | some encoder => .ok encoder
  | none => resolveValueEncoder dataType

end QueryEngine
