import QueryEngine.Output.RowWriter
import QueryEngine.Output.IntegerRendering
import QueryEngine.Library.JsonGrammar
import QueryEngine.Library.ByteLanes

/-!
# Output/NestedEncoder — the JSON of a stored value of any type

A column may be stored as a struct, a list of them, or a list of lists, to any depth.  Its encoder is a tree, resolved
once from its type and the catalog's word on its members; where the catalog has none, each value's own type decides.
Whatever resolves writes a JSON value for every row.
-/

open Numerals JsonGrammar

namespace QueryEngine

/-! ## Types and values -/

/-- How finely a timestamp counts. -/
inductive TimeUnit
  | second | millisecond
  deriving DecidableEq, Repr

/-- The type a column is stored at. -/
inductive StoredType
  | scalar (s : ScalarType)
  | float64
  | timestamp (unit : TimeUnit)
  | decimal128 (scale : ℤ)
  | list (item : StoredType)
  | struct (fields : List (String × StoredType))

/-- A row of a column. -/
inductive StoredValue
  | null
  | scalar (s : ScalarType) (value : s.Value)
  | float64 (bits : BitVec 64)
  | timestamp (v : ℤ)
  | decimal128 (v : ℤ)
  | list (elements : List StoredValue)
  | struct (members : List StoredValue)

/-- How one member of a struct column renders. -/
inductive MemberDescription
  | mk (encoding : Option JsonEncoding) (members : Option (List (String × MemberDescription)))

namespace MemberDescription

/-- How a member renders. -/
def encoding : MemberDescription → Option JsonEncoding
  | mk encoding _ => encoding

/-- The members of a member. -/
def members : MemberDescription → Option (List (String × MemberDescription))
  | mk _ members => members

end MemberDescription

/-- The catalog's description of a struct's members, where it has one. -/
abbrev Members := Option (List (String × MemberDescription))

/-- The member of a name. -/
def Members.get? (members : Members) (name : String) : Option MemberDescription := members.bind fun ms => ms.lookup name

/-! ## Encoders -/

/-- What is written for a row; nothing for a row of another type. -/
abbrev ValueEncoder := StoredValue → Option Bytes

/-- A scalar's encoder, run on the row alone. -/
def onScalar (encoder : EncoderFn) : ValueEncoder
  | .null => some jsonNull
  | .scalar s value => encoder (.scalar s [Slot.some value]) 0
  | _ => none

/-- Whether a float is a number, and no infinity. -/
def isFinite (bits : BitVec 64) : Bool := decide (bits.toNat / 2 ^ 52 % 2 ^ 11 ≠ 2047)

/-- A float: the shortest text of it, from `ryu`. -/
def encodeFloat64 (ryu : BitVec 64 → Bytes) : ValueEncoder
  | .null => some jsonNull
  | .float64 bits => some (if isFinite bits then ryu bits else jsonNull)
  | _ => none

/-- A timestamp, as a count of it. -/
def encodeTimestamp (count : ℤ → ℤ) : ValueEncoder
  | .null => some jsonNull
  | .timestamp v => some (decimal (count v))
  | _ => none

/-- A second in milliseconds, no further than 64 bits go. -/
def saturatingMillis (v : ℤ) : ℤ := max (-2 ^ 63) (min (2 ^ 63 - 1) (v * 1000))

/-- A timestamp as its storage counts, in seconds. -/
def encodeTimestampPhysical : TimeUnit → ValueEncoder
  | .second => encodeTimestamp id
  | .millisecond => encodeTimestamp fun v => v.tdiv 1000

/-- A decimal of a scale, quoted. -/
def writeDecimal128 (v scale : ℤ) : Bytes :=
  if scale ≤ 0 then decimal v
  else
    let divisor : ℤ := 10 ^ scale.toNat
    let fraction := decimal (v.tmod divisor).natAbs
    (if v < 0 ∧ v.tdiv divisor = 0 then [45] else []) ++ decimal (v.tdiv divisor) ++ [46] ++
      List.replicate (scale.toNat - fraction.length) 48 ++ fraction

/-- A decimal of a scale, as its number. -/
def encodeBignumDecimal (scale : ℤ) : ValueEncoder
  | .null => some jsonNull
  | .decimal128 v => some (quoted (writeDecimal128 v scale))
  | _ => none

/-- Texts between brackets, commas between them. -/
def arrayText (elements : List Bytes) : Bytes := [91] ++ List.intercalate [44] elements ++ [93]

mutual

/-- One value by its own type. -/
def encodeValue (ryu : BitVec 64 → Bytes) : StoredType → ValueEncoder
  | .scalar s, v =>
    match resolveScalarEncoder s with
    | .ok encoder => onScalar encoder v
    | .error _ => none
  | .float64, v => encodeFloat64 ryu v
  | .timestamp unit, v => encodeTimestampPhysical unit v
  | .decimal128 _, _ => none
  | .list _, .null => some jsonNull
  | .list item, .list elements => (elements.mapM (encodeValue ryu item)).map arrayText
  | .struct _, .null => some jsonNull
  | .struct fields, .struct members => (encodeFields ryu fields members).map objectText
  | _, _ => none

/-- The members of a struct, each by its own type. -/
def encodeFields (ryu : BitVec 64 → Bytes) : List (String × StoredType) → List StoredValue → Option (List Bytes)
  | (name, t) :: fields, v :: members =>
    (encodeValue ryu t v).bind fun value => (encodeFields ryu fields members).map fun rest =>
      (keyPrefix (snakeToCamel name) ++ value) :: rest
  | _, _ => some []

end

mutual

/-- Whether a type renders, and everything inside it; else the type that does not. -/
def checkRenderable : StoredType → Except StoredType Unit
  | .scalar s =>
    match resolveScalarEncoder s with
    | .ok _ => .ok ()
    | .error _ => .error (.scalar s)
  | .float64 => .ok ()
  | .timestamp _ => .ok ()
  | .decimal128 scale => .error (.decimal128 scale)
  | .list item => checkRenderable item
  | .struct fields => checkFields fields

/-- Whether each field of a struct renders. -/
def checkFields : List (String × StoredType) → Except StoredType Unit
  | [] => .ok ()
  | (_, t) :: fields => do
    checkRenderable t
    checkFields fields

end

/-- The encoder for a physical type, or the refusal. -/
def resolveByType (ryu : BitVec 64 → Bytes) (t : StoredType) : Except StoredType ValueEncoder := do
  checkRenderable t
  .ok (encodeValue ryu t)

/-- How a timestamp of a unit counts, by its encoding and its declared type. -/
def timestampEncoder (unit : TimeUnit) (encoding : Option JsonEncoding) (declared : Option ColumnType) : ValueEncoder :=
  if encoding = some .timestampMillisecond ∧ unit = .millisecond then encodeTimestamp id
  else
    match unit, declared with
    | .millisecond, some .timestampMillisecond => encodeTimestamp id
    | .second, some .timestampMillisecond => encodeTimestamp saturatingMillis
    | unit, _ => encodeTimestampPhysical unit

/-- An encoder from a type and the catalog's word on how it renders. -/
def resolvePlain (ryu : BitVec 64 → Bytes) (t : StoredType) (encoding : Option JsonEncoding)
    (declared : Option ColumnType) :
    Except StoredType ValueEncoder :=
  match t with
  | .scalar s =>
    match resolveEncoderFn (.scalar s) encoding declared with
    | .ok encoder => .ok (onScalar encoder)
    | .error _ => .error t
  | .timestamp unit => .ok (timestampEncoder unit encoding declared)
  | .decimal128 scale => if encoding = some .decimalString then .ok (encodeBignumDecimal scale) else .error t
  | t => resolveByType ryu t

/-- A column's encoder: a function for a column of one type, or a tree of them. -/
inductive Encoder
  | plain (encoder : ValueEncoder)
  /-- A struct's members in stored order: the key with its colon, and the member's encoder. -/
  | struct (members : List (Bytes × Encoder))
  /-- A list whose elements carry an encoder of their own. -/
  | list (element : Encoder)

mutual

/-- A value through its encoder. -/
def Encoder.encode : Encoder → ValueEncoder
  | .plain encoder, v => encoder v
  | .struct _, .null => some jsonNull
  | .struct members, .struct values => (Encoder.encodeMembers members values).map objectText
  | .list _, .null => some jsonNull
  | .list element, .list elements => (elements.mapM element.encode).map arrayText
  | _, _ => none

/-- The members of a struct, each through its encoder. -/
def Encoder.encodeMembers : List (Bytes × Encoder) → List StoredValue → Option (List Bytes)
  | (key, member) :: members, v :: values =>
    (member.encode v).bind fun value => (Encoder.encodeMembers members values).map fun rest => (key ++ value) :: rest
  | _, _ => some []

end

mutual

/-- A column's encoder, from its physical type and the catalog's word on how it renders. -/
def resolveEncoder (ryu : BitVec 64 → Bytes) : StoredType → Option JsonEncoding → Option ColumnType → Members →
    Except StoredType Encoder
  | .struct fields, _, _, members => (resolveMembers ryu fields members).map .struct
  | .list (.struct fields), _, _, members => (resolveMembers ryu fields members).map fun ms => .list (.struct ms)
  | t, encoding, declared, _ => (resolvePlain ryu t encoding declared).map .plain

/-- The members of a struct, each with its key. -/
def resolveMembers (ryu : BitVec 64 → Bytes) : List (String × StoredType) → Members → Except StoredType
    (List (Bytes × Encoder))
  | [], _ => .ok []
  | (name, t) :: fields, members => do
    let member := members.get? name
    let encoder ← resolveEncoder ryu t (member.bind MemberDescription.encoding) none
      (member.bind MemberDescription.members)
    let rest ← resolveMembers ryu fields members
    .ok ((keyPrefix (snakeToCamel name), encoder) :: rest)

end

/-! ## Values a column may hold -/

/-- A text that is JSON, or empty. -/
def VerbatimJson : (s : ScalarType) → s.Value → Prop
  | .text .utf8, text => text.bytes ≠ [] → IsValue text.bytes
  | _, _ => True

/-- **A value of a column**: of its type, and JSON where the catalog has it verbatim. -/
inductive Fits : StoredType → Option JsonEncoding → Members → StoredValue → Prop
  | null {t : StoredType} {encoding : Option JsonEncoding} {members : Members} : Fits t encoding members .null
  | scalar {s : ScalarType} {encoding : Option JsonEncoding} {members : Members} {value : s.Value} :
      (encoding = some .jsonVerbatim → VerbatimJson s value) → Fits (.scalar s) encoding members (.scalar s value)
  | float64 {encoding : Option JsonEncoding} {members : Members} {bits : BitVec 64} :
      Fits .float64 encoding members (.float64 bits)
  | timestamp {unit : TimeUnit} {encoding : Option JsonEncoding} {members : Members} {v : ℤ} :
      Fits (.timestamp unit) encoding members (.timestamp v)
  | decimal128 {scale : ℤ} {encoding : Option JsonEncoding} {members : Members} {v : ℤ} :
      Fits (.decimal128 scale) encoding members (.decimal128 v)
  | list {item : StoredType} {encoding : Option JsonEncoding} {members : Members} {elements : List StoredValue} :
      (∀ e ∈ elements, Fits item encoding members e) → Fits (.list item) encoding members (.list elements)
  | struct {fields : List (String × StoredType)} {encoding : Option JsonEncoding} {members : Members}
      {values : List StoredValue} : values.length = fields.length →
      (∀ p ∈ fields.zip values, Fits p.1.2 ((members.get? p.1.1).bind MemberDescription.encoding)
        ((members.get? p.1.1).bind MemberDescription.members) p.2) →
      Fits (.struct fields) encoding members (.struct values)

/-! ## Strings are JSON -/

section Strings

open ByteLanes

/-- Eight bytes are a word. -/
theorem ofLeBytes_lt_word {bs : List UInt8} (hlen : bs.length = 8) : ofLeBytes bs < 2 ^ 64 := by
  have hbytes := ofLeBytes_lt bs
  rw [hlen] at hbytes
  exact hbytes.trans_eq (by norm_num)

/-- An exclusive or with a byte in every lane is the word of the bytes' exclusive ors. -/
theorem xor_word {bs : List UInt8} (hlen : bs.length = 8) (c : UInt8) {mask : BitVec 64}
    (hmask : mask.toNat = lanes c.toNat 8) :
    BitVec.ofNat 64 (ofLeBytes bs) ^^^ mask = BitVec.ofNat 64 (ofLeBytes (bs.map (· ^^^ c))) := by
  have hlt := ofLeBytes_lt_word hlen
  have hlt' := @ofLeBytes_lt_word (bs.map (· ^^^ c)) (by rw [List.length_map, hlen])
  refine BitVec.eq_of_toNat_eq ?_
  rw [BitVec.toNat_xor, hmask, BitVec.toNat_ofNat, Nat.mod_eq_of_lt hlt, ← hlen, xor_lanes, BitVec.toNat_ofNat,
    Nat.mod_eq_of_lt hlt']

/-- A word without a byte below a bound, as the lanes' top bits say. -/
theorem le_of_word {bs : List UInt8} (hlen : bs.length = 8) {n : ℕ} (hn : n ≤ 128) {bound : BitVec 64}
    (hbound : bound.toNat = lanes n 8)
    (h : (BitVec.ofNat 64 (ofLeBytes bs) - bound) &&& ~~~BitVec.ofNat 64 (ofLeBytes bs) &&& escapeHigh = 0) :
    ∀ b ∈ bs, n ≤ b.toNat := by
  have hlt := ofLeBytes_lt_word hlen
  refine le_of_testBit hn bs fun i hi htop => ?_
  rw [hlen] at hi htop
  have hhigh : escapeHigh.getLsbD (8 * i + 7) = true := by
    interval_cases i <;> decide
  have hsub : (BitVec.ofNat 64 (ofLeBytes bs) - bound).getLsbD (8 * i + 7) = true := by
    rw [BitVec.getLsbD, BitVec.toNat_sub, hbound, BitVec.toNat_ofNat, Nat.mod_eq_of_lt hlt]
    exact htop
  have hbit := congrArg (fun w => w.getLsbD (8 * i + 7)) h
  simp only [BitVec.getLsbD_and, BitVec.getLsbD_not, hhigh, hsub, Bool.true_and, Bool.and_true] at hbit
  have hin : decide (8 * i + 7 < 64) = true := decide_eq_true (by omega)
  rw [hin, Bool.true_and, BitVec.getLsbD, BitVec.toNat_ofNat, Nat.mod_eq_of_lt hlt] at hbit
  simpa using hbit

/-- A word without a byte, as the lanes' top bits say. -/
theorem ne_of_word {bs : List UInt8} (hlen : bs.length = 8) (c : UInt8) {mask : BitVec 64}
    (hmask : mask.toNat = lanes c.toNat 8)
    (h : ((BitVec.ofNat 64 (ofLeBytes bs) ^^^ mask) - escapeOnes) &&& ~~~(BitVec.ofNat 64 (ofLeBytes bs) ^^^ mask) &&&
      escapeHigh = 0) : ∀ b ∈ bs, b ≠ c := by
  rw [xor_word hlen c hmask] at h
  have hones := le_of_word (n := 1) (by rw [List.length_map, hlen]) (by decide) (by decide) h
  rintro b hb rfl
  have hzero := hones (b ^^^ b) (List.mem_map_of_mem hb)
  simp at hzero

/-- **What needs no escape stands for itself.** -/
theorem isPlain_of_needsEscape (s : Bytes) (h : needsEscape s = false) : ∀ b ∈ s, IsPlain b := by
  fun_induction needsEscape s with
  | case1 b₀ b₁ b₂ b₃ b₄ b₅ b₆ b₇ rest word zeroByte belowSpace ih =>
    simp only [Bool.or_eq_false_iff] at h
    obtain ⟨⟨⟨hspace, hquote⟩, hslash⟩, hrest⟩ := h
    have hlen : [b₀, b₁, b₂, b₃, b₄, b₅, b₆, b₇].length = 8 := rfl
    have hwords : ∀ b ∈ [b₀, b₁, b₂, b₃, b₄, b₅, b₆, b₇], IsPlain b := by
      intro b hb
      have hatLeast := @le_of_word _ hlen 32 (by decide) (escapeOnes * 0x20#64) (by decide)
          (bne_eq_false_iff_eq.mp hspace)
      have hnoQuote := @ne_of_word _ hlen 34 (escapeOnes * 34#64) (by decide) (bne_eq_false_iff_eq.mp hquote)
      have hnoSlash := @ne_of_word _ hlen 92 (escapeOnes * 92#64) (by decide) (bne_eq_false_iff_eq.mp hslash)
      exact ⟨UInt8.le_iff_toNat_le.mpr (hatLeast b hb), hnoQuote b hb, hnoSlash b hb⟩
    intro b hb
    have hsplit : b₀ :: b₁ :: b₂ :: b₃ :: b₄ :: b₅ :: b₆ :: b₇ :: rest = [b₀, b₁, b₂, b₃, b₄, b₅, b₆, b₇] ++ rest := rfl
    rw [hsplit, List.mem_append] at hb
    exact hb.elim (hwords b) (ih hrest b)
  | case2 rest hrest =>
    intro b hb
    have hb := List.any_eq_false.mp h b hb
    simp only [Bool.or_eq_true, decide_eq_true_eq, beq_iff_eq, not_or, UInt8.not_lt] at hb
    exact ⟨hb.1.1, hb.1.2, hb.2⟩

theorem isHexDigit_digitChar {d : ℕ} (h : d < 16) : IsHexDigit (digitChar d) := by
  interval_cases d <;> decide

theorem isPlain_digitChar {d : ℕ} (h : d < 16) : IsPlain (digitChar d) := by
  interval_cases d <;> decide

theorem isChars_escapeByte (b : UInt8) : IsChars (escapeByte b) := by
  have hb := b.toNat_lt
  unfold escapeByte
  split_ifs with hquote hslash _ _ _ _ _ hspace
  all_goals try exact .escape (by decide) .nil
  · exact .unicode (by decide) (by decide) (isHexDigit_digitChar (by omega)) (isHexDigit_digitChar (by omega)) .nil
  · exact .plain ⟨UInt8.not_lt.mp hspace, hquote, hslash⟩ .nil

/-- **An encoded text is a JSON string.** -/
theorem isString_encodeJsonString (s : Bytes) : IsString (encodeJsonString s) := by
  unfold encodeJsonString
  split
  · exact ⟨_, isChars_flatMap isChars_escapeByte s, rfl⟩
  · next hplain => exact .of_plain (isPlain_of_needsEscape s (by simpa using hplain))

/-- Hex text needs no escape. -/
theorem exists_plain_encodeHexBytes (bytes : Bytes) :
    ∃ chars, encodeHexBytes bytes = quoted chars ∧ ∀ b ∈ chars, IsPlain b := by
  refine ⟨_, rfl, fun b hb => ?_⟩
  rcases List.mem_append.mp hb with hb | hb
  · simp only [List.mem_cons, List.not_mem_nil, or_false] at hb
    rcases hb with rfl | rfl <;> decide
  · obtain ⟨byte, -, hb⟩ := List.mem_flatMap.mp hb
    have hbyte := byte.toNat_lt
    simp only [hexByte, List.mem_cons, List.not_mem_nil, or_false] at hb
    rcases hb with rfl | rfl
    · exact isPlain_digitChar (by omega)
    · exact isPlain_digitChar (by omega)

theorem isString_encodeHexBytes (bytes : Bytes) : IsString (encodeHexBytes bytes) := by
  obtain ⟨chars, htext, hplain⟩ := exists_plain_encodeHexBytes bytes
  exact htext ▸ .of_plain hplain

/-- Digits pushed to are digits. -/
theorem base58Push_lt : ∀ (carry : ℕ) (ds : List ℕ), ∀ d ∈ base58Push carry ds, d < 58
  | carry, [], d, hd => by
    rw [base58Push, digits_eq (by decide)] at hd
    exact Nat.digits_lt_base (by decide) hd
  | carry, digit :: rest, d, hd => by
    rcases List.mem_cons.mp hd with rfl | hd
    · exact Nat.mod_lt _ (by decide)
    · exact base58Push_lt _ rest d hd

/-- Base58 needs no escape. -/
theorem exists_plain_encodeBase58Bytes (bytes : Bytes) :
    ∃ chars, encodeBase58Bytes bytes = quoted chars ∧ ∀ b ∈ chars, IsPlain b := by
  have halphabet : ∀ d < 58, IsPlain (base58Alphabet.getD d 0) := by decide
  have hdigits : ∀ (bytes : Bytes) (ds : List ℕ), (∀ d ∈ ds, d < 58) →
      ∀ d ∈ bytes.foldl (fun ds byte => base58Push byte.toNat ds) ds, d < 58 := by
    intro bytes
    induction bytes with
    | nil => exact fun ds hds => hds
    | cons byte bytes ih => exact fun ds _ => ih _ (base58Push_lt _ _)
  refine ⟨_, rfl, fun b hb => ?_⟩
  rcases List.mem_append.mp hb with hb | hb
  · rw [List.eq_of_mem_replicate hb]
    decide
  · obtain ⟨d, hd, rfl⟩ := List.mem_map.mp hb
    exact halphabet d (hdigits _ [] nofun d (List.mem_reverse.mp hd))

theorem isString_encodeBase58Bytes (bytes : Bytes) : IsString (encodeBase58Bytes bytes) := by
  obtain ⟨chars, htext, hplain⟩ := exists_plain_encodeBase58Bytes bytes
  exact htext ▸ .of_plain hplain

theorem isString_quoted_decimal (v : ℤ) : IsString (quoted (decimal v)) := .of_plain fun _ hb => isPlain_decimal hb

/-- A decimal of a scale is written in digits, a point and a sign. -/
theorem isString_quoted_decimal128 (v scale : ℤ) : IsString (quoted (writeDecimal128 v scale)) := by
  refine .of_plain fun b hb => ?_
  unfold writeDecimal128 at hb
  split at hb
  · exact isPlain_decimal hb
  · simp only [List.mem_append, List.mem_singleton] at hb
    rcases hb with (((hb | hb) | rfl) | hb) | hb
    · split at hb
      · obtain rfl := List.mem_singleton.mp hb
        decide
      · exact absurd hb List.not_mem_nil
    · exact isPlain_decimal hb
    · decide
    · rw [List.eq_of_mem_replicate hb]
      decide
    · exact isPlain_decimal hb

theorem isString_legacy : IsString [34, 108, 101, 103, 97, 99, 121, 34] := by
  refine ⟨[108, 101, 103, 97, 99, 121], isChars_of_plain fun b hb => ?_, rfl⟩
  simp only [List.mem_cons, List.not_mem_nil, or_false] at hb
  rcases hb with rfl | rfl | rfl | rfl | rfl | rfl <;> decide

end Strings

/-! ## Scalars are JSON -/

/-- What a row's encoder writes is JSON. -/
def WritesJson (written : Option Bytes) : Prop := ∃ text, written = some text ∧ IsValue text

theorem WritesJson.null : WritesJson (some jsonNull) := ⟨_, rfl, .null⟩

section Scalars

variable {encoder : EncoderFn}

theorem encodeInt_json {write : (t : IntType) → t.Native → Bytes} (hwrite : ∀ t b, IsValue (write t b)) {t : IntType}
    (b : t.Native) : WritesJson (onScalar (encodeInt write) (.scalar (.int t) b)) :=
  ⟨_, encodeInt_some write rfl, hwrite t b⟩

theorem encodeUtf8Value_json (text : Text) : WritesJson (onScalar encodeUtf8Value (.scalar (.text .utf8) text)) :=
  ⟨_, rfl, .string (isString_encodeJsonString _)⟩

theorem encodeBytes_json {render : Bytes → Bytes} (hrender : ∀ bytes, IsString (render bytes)) {k : BytesType}
    (value : (ScalarType.bytes k).Value) : WritesJson (onScalar (encodeBytes render k) (.scalar (.bytes k) value)) :=
  ⟨render value.1, by simp [onScalar, encodeBytes, Slot.some], .string (hrender _)⟩

theorem encodeHexNumber_json (width : ℕ) {t : IntType} (b : t.Native) :
    WritesJson (onScalar (encodeHexNumber width) (.scalar (.int t) b)) := by
  refine encodeInt_json (fun t b => ?_) b
  split
  · exact .string (isString_encodeHexBytes _)
  · exact .string (isString_encodeHexBytes _)

/-- A scalar by its own type. -/
theorem resolveScalarEncoder_json {s : ScalarType} (h : resolveScalarEncoder s = .ok encoder) (value : s.Value) :
    WritesJson (onScalar encoder (.scalar s value)) := by
  cases s with
  | int t =>
    rw [resolveScalarEncoder_int] at h
    obtain rfl := Except.ok.inj h
    refine ⟨decimal (t.value value), ?_, .number (isNumber_decimal _)⟩
    rw [onScalar, encodeStored, Column.dataType, if_pos rfl]
    exact encodeInt_some _ rfl
  | boolean =>
    obtain rfl := Except.ok.inj h
    cases value with
    | true => exact ⟨_, rfl, .true⟩
    | false => exact ⟨_, rfl, .false⟩
  | text k =>
    cases k with
    | utf8 =>
      obtain rfl := Except.ok.inj h
      exact encodeUtf8Value_json value
    | largeUtf8 => cases h
    | utf8View => cases h
  | bytes k =>
    cases k with
    | binary =>
      obtain rfl := Except.ok.inj h
      exact encodeBytes_json isString_encodeHexBytes value
    | fixedSizeBinary size =>
      obtain rfl := Except.ok.inj h
      exact encodeBytes_json isString_encodeHexBytes value
    | largeBinary => cases h
  | other name => cases h

/-- Any integer column has a width to write hex numbers of. -/
theorem exists_hexNumberEncoder (t : IntType) (declared : Option ColumnType) :
    ∃ width, resolveHexNumberEncoder (.scalar (.int t)) declared = some (encodeHexNumber width) := by
  unfold resolveHexNumberEncoder
  rw [widthOf_int]
  dsimp only
  split
  all_goals first
    | exact ⟨_, rfl⟩
    | (split <;> exact ⟨_, rfl⟩)

section Encoded

variable {encoding : Option JsonEncoding} {declared : Option ColumnType}

/-- An integer under an encoding: it has an encoder of its own under three of them. -/
theorem resolveEncoderFn_int_json {t : IntType} (h : resolveEncoderFn (.scalar (.int t)) encoding declared =
    .ok encoder)
    (value : t.Native) : WritesJson (onScalar encoder (.scalar (.int t) value)) := by
  unfold resolveEncoderFn at h
  cases encoding with
  | none => exact resolveScalarEncoder_json h value
  | some e =>
    cases e with
    | decimalString =>
      obtain rfl := Except.ok.inj h
      exact encodeInt_json (fun t b => .string (isString_quoted_decimal _)) value
    | hexNumber =>
      obtain ⟨width, hwidth⟩ := exists_hexNumberEncoder t declared
      simp only [hwidth] at h
      obtain rfl := Except.ok.inj h
      exact encodeHexNumber_json width value
    | solanaTxVersion =>
      obtain rfl := Except.ok.inj h
      refine encodeInt_json (fun t b => ?_) value
      split
      · exact .string isString_legacy
      · exact .number (isNumber_decimal _)
    | hexBytes => exact resolveScalarEncoder_json h value
    | base58 => exact resolveScalarEncoder_json h value
    | jsonVerbatim => exact resolveScalarEncoder_json h value
    | timestampMillisecond => exact resolveScalarEncoder_json h value

/-- Text under an encoding: as it stands where it is JSON already, else quoted. -/
theorem resolveEncoderFn_text_json {k : TextType}
    (h : resolveEncoderFn (.scalar (.text k)) encoding declared = .ok encoder) (value : Text)
    (hverbatim : encoding = some .jsonVerbatim → VerbatimJson (.text k) value) :
    WritesJson (onScalar encoder (.scalar (.text k) value)) := by
  unfold resolveEncoderFn at h
  cases k with
  | utf8 =>
    rcases encoding with _ | _ | _ | _ | _ | _ | _ | _
    case some.jsonVerbatim =>
      obtain rfl := Except.ok.inj h
      by_cases hempty : value.bytes = []
      · exact ⟨jsonNull, by simp [onScalar, encodeJsonPassthrough, Slot.some, hempty], .null⟩
      · exact ⟨value.bytes, by simp [onScalar, encodeJsonPassthrough, Slot.some, hempty], hverbatim rfl hempty⟩
    all_goals
      obtain rfl := Except.ok.inj h
      exact encodeUtf8Value_json value
  | largeUtf8 => rcases encoding with _ | _ | _ | _ | _ | _ | _ | _ <;> cases h
  | utf8View => rcases encoding with _ | _ | _ | _ | _ | _ | _ | _ <;> cases h

/-- A byte string under an encoding: as base-58 text, else as hex. -/
theorem resolveEncoderFn_bytes_json {k : BytesType}
    (h : resolveEncoderFn (.scalar (.bytes k)) encoding declared = .ok encoder) (value : (ScalarType.bytes k).Value) :
    WritesJson (onScalar encoder (.scalar (.bytes k) value)) := by
  unfold resolveEncoderFn at h
  cases k with
  | largeBinary => rcases encoding with _ | _ | _ | _ | _ | _ | _ | _ <;> cases h
  | _ =>
    rcases encoding with _ | _ | _ | _ | _ | _ | _ | _
    case some.base58 =>
      obtain rfl := Except.ok.inj h
      exact encodeBytes_json isString_encodeBase58Bytes value
    all_goals
      obtain rfl := Except.ok.inj h
      exact encodeBytes_json isString_encodeHexBytes value

/-- **A scalar under an encoding.** -/
theorem resolveEncoderFn_json {s : ScalarType} (h : resolveEncoderFn (.scalar s) encoding declared = .ok encoder)
    (value : s.Value) (hverbatim : encoding = some .jsonVerbatim → VerbatimJson s value) :
    WritesJson (onScalar encoder (.scalar s value)) := by
  cases s with
  | int t => exact resolveEncoderFn_int_json h value
  | boolean =>
    unfold resolveEncoderFn at h
    rcases encoding with _ | _ | _ | _ | _ | _ | _ | _ <;> exact resolveScalarEncoder_json (s := .boolean) h value
  | text k => exact resolveEncoderFn_text_json h value hverbatim
  | bytes k => exact resolveEncoderFn_bytes_json h value
  | other name =>
    unfold resolveEncoderFn at h
    rcases encoding with _ | _ | _ | _ | _ | _ | _ | _ <;> cases h

end Encoded

end Scalars

/-! ## Values are JSON -/

/-- Parts that each come out, come out together. -/
theorem exists_mapM_some {α β : Type} {f : α → Option β} {P : β → Prop} :
    ∀ {xs : List α}, (∀ x ∈ xs, ∃ y, f x = some y ∧ P y) → ∃ ys, xs.mapM f = some ys ∧ ∀ y ∈ ys, P y
  | [], _ => ⟨[], rfl, nofun⟩
  | x :: xs, h => by
    obtain ⟨y, hy, hp⟩ := h x List.mem_cons_self
    obtain ⟨ys, hys, hps⟩ := exists_mapM_some fun x' hx' => h x' (List.mem_cons_of_mem _ hx')
    refine ⟨y :: ys, by simp [hy, hys], fun y' hy' => ?_⟩
    rcases List.mem_cons.mp hy' with rfl | hy'
    · exact hp
    · exact hps y' hy'

/-- A key and a value are a member. -/
theorem isMember_keyPrefix (key : String) {value : Bytes} (h : IsValue value) : IsMember (keyPrefix key ++ value) :=
  ⟨encodeJsonString (utf8 key), value, (isString_encodeJsonString _).isKey, h, rfl⟩

section Values

variable {ryu : BitVec 64 → Bytes} (hryu : ∀ bits, isFinite bits = true → IsNumber (ryu bits))

theorem encodeTimestamp_json (count : ℤ → ℤ) {unit : TimeUnit} {encoding : Option JsonEncoding} {members : Members}
    {v : StoredValue} (hv : Fits (.timestamp unit) encoding members v) : WritesJson (encodeTimestamp count v) := by
  cases hv with
  | null => exact .null
  | timestamp => exact ⟨_, rfl, .number (isNumber_decimal _)⟩

theorem encodeTimestampPhysical_json {unit stored : TimeUnit} {encoding : Option JsonEncoding} {members : Members}
    {v : StoredValue} (hv : Fits (.timestamp stored) encoding members v) : WritesJson
      (encodeTimestampPhysical unit v) := by
  cases unit with
  | second => exact encodeTimestamp_json _ hv
  | millisecond => exact encodeTimestamp_json _ hv

include hryu

theorem encodeFloat64_json {encoding : Option JsonEncoding} {members : Members} {v : StoredValue}
    (hv : Fits .float64 encoding members v) : WritesJson (encodeFloat64 ryu v) := by
  cases hv with
  | null => exact .null
  | @float64 _ _ bits =>
    rw [encodeFloat64]
    split
    · next hfinite => exact ⟨_, rfl, .number (hryu bits hfinite)⟩
    · exact .null

omit hryu

mutual

/-- **A value that renders by its own type is written as JSON.** -/
theorem encodeValue_json (hryu : ∀ bits, isFinite bits = true → IsNumber (ryu bits)) : ∀ (t : StoredType),
    checkRenderable t = .ok () → ∀ {encoding : Option JsonEncoding}
    {members : Members} {v : StoredValue}, Fits t encoding members v → WritesJson (encodeValue ryu t v)
  | .scalar s, h, _, _, v, hv => by
    rw [checkRenderable] at h
    rw [encodeValue]
    cases hresolve : resolveScalarEncoder s with
    | error e => rw [hresolve] at h; cases h
    | ok encoder =>
      cases hv with
      | null => exact .null
      | scalar _ => exact resolveScalarEncoder_json hresolve _
  | .float64, _, _, _, v, hv => by
    rw [encodeValue]
    exact encodeFloat64_json hryu hv
  | .timestamp unit, _, _, _, v, hv => by
    rw [encodeValue]
    exact encodeTimestampPhysical_json hv
  | .decimal128 scale, h, _, _, v, hv => by
    rw [checkRenderable] at h
    cases h
  | .list item, h, _, _, v, hv => by
    rw [checkRenderable] at h
    cases hv with
    | null => rw [encodeValue]; exact .null
    | list helements =>
      rw [encodeValue]
      obtain ⟨texts, htexts, hvalues⟩ := exists_mapM_some fun e he => encodeValue_json hryu item h (helements e he)
      exact ⟨arrayText texts, by rw [htexts]; rfl, .array hvalues⟩
  | .struct fields, h, _, _, v, hv => by
    rw [checkRenderable] at h
    cases hv with
    | null => rw [encodeValue]; exact .null
    | struct hlength hmembers =>
      rw [encodeValue]
      obtain ⟨texts, htexts, hvalues⟩ := encodeFields_json hryu fields h hlength fun p hp => ⟨_, _, hmembers p hp⟩
      exact ⟨objectText texts, by rw [htexts]; rfl, .of_members hvalues⟩

/-- The members of a struct are written as members of an object. -/
theorem encodeFields_json (hryu : ∀ bits, isFinite bits = true → IsNumber (ryu bits)) : ∀
    (fields : List (String × StoredType)), checkFields fields = .ok () →
    ∀ {values : List StoredValue}, values.length = fields.length →
      (∀ p ∈ fields.zip values, ∃ encoding members, Fits p.1.2 encoding members p.2) →
      ∃ texts, encodeFields ryu fields values = some texts ∧ ∀ m ∈ texts, IsMember m
  | [], _, values, _, _ => ⟨[], by rw [encodeFields]; nofun, nofun⟩
  | (name, t) :: fields, h, values, hlength, hmembers => by
    rw [checkFields] at h
    obtain ⟨_, ht, hfields⟩ := Fallible.bind_eq_ok.mp h
    cases values with
    | nil => cases hlength
    | cons v values =>
      obtain ⟨_, _, hv⟩ := hmembers ((name, t), v) List.mem_cons_self
      obtain ⟨text, htext, hvalue⟩ := encodeValue_json hryu t ht hv
      obtain ⟨texts, htexts, hrest⟩ := encodeFields_json hryu fields hfields (Nat.succ.inj hlength) fun p hp =>
        hmembers p (List.mem_cons_of_mem _ hp)
      refine ⟨(keyPrefix (snakeToCamel name) ++ text) :: texts, by rw [encodeFields, htext, htexts]; rfl, ?_⟩
      exact List.forall_mem_cons.mpr ⟨isMember_keyPrefix _ hvalue, hrest⟩

end

include hryu

theorem resolveByType_json {t : StoredType} {encoder : ValueEncoder} (h : resolveByType ryu t = .ok encoder)
    {encoding : Option JsonEncoding} {members : Members} {v : StoredValue} (hv : Fits t encoding members v) :
    WritesJson (encoder v) := by
  obtain ⟨_, hcheck, h⟩ := Fallible.bind_eq_ok.mp h
  obtain rfl := Except.ok.inj h
  exact encodeValue_json hryu t hcheck hv

/-- **A resolved encoder writes JSON.** -/
theorem resolvePlain_json {t : StoredType} {encoding : Option JsonEncoding} {declared : Option ColumnType}
    {encoder : ValueEncoder} (h : resolvePlain ryu t encoding declared = .ok encoder) {members : Members}
      {v : StoredValue}
    (hv : Fits t encoding members v) : WritesJson (encoder v) := by
  unfold resolvePlain at h
  cases t with
  | scalar s =>
    dsimp only at h
    split at h
    · next resolved hresolve =>
      obtain rfl := Except.ok.inj h
      cases hv with
      | null => exact .null
      | scalar hverbatim => exact resolveEncoderFn_json hresolve _ hverbatim
    · cases h
  | timestamp unit =>
    obtain rfl := Except.ok.inj h
    unfold timestampEncoder
    split
    · exact encodeTimestamp_json _ hv
    · split
      · exact encodeTimestamp_json _ hv
      · exact encodeTimestamp_json _ hv
      · exact encodeTimestampPhysical_json hv
  | decimal128 scale =>
    dsimp only at h
    split at h
    · obtain rfl := Except.ok.inj h
      cases hv with
      | null => exact .null
      | decimal128 => exact ⟨_, rfl, .string (isString_quoted_decimal128 _ _)⟩
    · cases h
  | float64 => exact resolveByType_json hryu h hv
  | list item => exact resolveByType_json hryu h hv
  | struct fields => exact resolveByType_json hryu h hv

/-- A column that is neither a struct nor a list of them. -/
theorem resolveEncoder_plain_json {t : StoredType} {encoding : Option JsonEncoding} {declared : Option ColumnType}
    {members : Members} {encoder : Encoder} (hstruct : ∀ fields, t = .struct fields → False)
    (hlist : ∀ fields, t = .list (.struct fields) → False) (h : resolveEncoder ryu t encoding declared members =
      .ok encoder)
    {v : StoredValue} (hv : Fits t encoding members v) : WritesJson (encoder.encode v) := by
  rw [resolveEncoder] at h
  · obtain ⟨resolved, hresolve, rfl⟩ := Fallible.map_eq_ok.mp h
    rw [Encoder.encode]
    exact resolvePlain_json hryu hresolve hv
  · exact hstruct
  · exact hlist

omit hryu in
/-- A struct whose members are written as members is an object. -/
theorem encode_struct_json {resolved : List (Bytes × Encoder)} {values : List StoredValue}
    (h : ∃ texts, Encoder.encodeMembers resolved values = some texts ∧ ∀ m ∈ texts, IsMember m) :
    WritesJson ((Encoder.struct resolved).encode (.struct values)) := by
  obtain ⟨texts, htexts, hmembers⟩ := h
  rw [Encoder.encode]
  exact ⟨objectText texts, by rw [htexts]; rfl, .of_members hmembers⟩

omit hryu

mutual

/-- **A resolved tree of encoders writes JSON.** -/
theorem resolveEncoder_json (hryu : ∀ bits, isFinite bits = true → IsNumber (ryu bits)) : ∀ (t : StoredType)
    {encoding : Option JsonEncoding} {declared : Option ColumnType}
    {members : Members} {encoder : Encoder}, resolveEncoder ryu t encoding declared members = .ok encoder →
    ∀ {v : StoredValue}, Fits t encoding members v → WritesJson (encoder.encode v)
  | .struct fields, _, _, _, _, h, v, hv => by
    rw [resolveEncoder] at h
    obtain ⟨resolved, hresolve, rfl⟩ := Fallible.map_eq_ok.mp h
    cases hv with
    | null => rw [Encoder.encode]; exact .null
    | struct hlength hmembers => exact encode_struct_json (resolveMembers_json hryu fields hresolve hlength hmembers)
  | .list (.struct fields), _, _, _, _, h, v, hv => by
    rw [resolveEncoder] at h
    obtain ⟨resolved, hresolve, rfl⟩ := Fallible.map_eq_ok.mp h
    cases hv with
    | null => rw [Encoder.encode]; exact .null
    | list helements =>
      rw [Encoder.encode]
      have helement : ∀ e ∈ _, WritesJson ((Encoder.struct resolved).encode e) := fun e he => by
        cases helements e he with
        | null => rw [Encoder.encode]; exact .null
        | struct hlength hmembers => exact encode_struct_json (resolveMembers_json hryu fields hresolve hlength
          hmembers)
      obtain ⟨texts, htexts, hvalues⟩ := exists_mapM_some helement
      exact ⟨arrayText texts, by rw [htexts]; rfl, .array hvalues⟩
  | .scalar _, _, _, _, _, h, _, hv => resolveEncoder_plain_json hryu (by simp) (by simp) h hv
  | .float64, _, _, _, _, h, _, hv => resolveEncoder_plain_json hryu (by simp) (by simp) h hv
  | .timestamp _, _, _, _, _, h, _, hv => resolveEncoder_plain_json hryu (by simp) (by simp) h hv
  | .decimal128 _, _, _, _, _, h, _, hv => resolveEncoder_plain_json hryu (by simp) (by simp) h hv
  | .list (.scalar _), _, _, _, _, h, _, hv => resolveEncoder_plain_json hryu (by simp) (by simp) h hv
  | .list .float64, _, _, _, _, h, _, hv => resolveEncoder_plain_json hryu (by simp) (by simp) h hv
  | .list (.timestamp _), _, _, _, _, h, _, hv => resolveEncoder_plain_json hryu (by simp) (by simp) h hv
  | .list (.decimal128 _), _, _, _, _, h, _, hv => resolveEncoder_plain_json hryu (by simp) (by simp) h hv
  | .list (.list _), _, _, _, _, h, _, hv => resolveEncoder_plain_json hryu (by simp) (by simp) h hv

/-- The members of a struct, each through its encoder. -/
theorem resolveMembers_json (hryu : ∀ bits, isFinite bits = true → IsNumber (ryu bits)) : ∀
    (fields : List (String × StoredType)) {members : Members} {resolved : List (Bytes × Encoder)},
    resolveMembers ryu fields members = .ok resolved → ∀ {values : List StoredValue}, values.length = fields.length →
      (∀ p ∈ fields.zip values, Fits p.1.2 ((members.get? p.1.1).bind MemberDescription.encoding)
        ((members.get? p.1.1).bind MemberDescription.members) p.2) →
      ∃ texts, Encoder.encodeMembers resolved values = some texts ∧ ∀ m ∈ texts, IsMember m
  | [], _, resolved, h, values, _, _ => by
    rw [resolveMembers] at h
    obtain rfl := Except.ok.inj h
    exact ⟨[], by rw [Encoder.encodeMembers]; nofun, nofun⟩
  | (name, t) :: fields, members, resolved, h, values, hlength, hmembers => by
    rw [resolveMembers] at h
    obtain ⟨encoder, hencoder, h⟩ := Fallible.bind_eq_ok.mp h
    obtain ⟨rest, hrest, h⟩ := Fallible.bind_eq_ok.mp h
    obtain rfl := Except.ok.inj h
    cases values with
    | nil => cases hlength
    | cons v values =>
      obtain ⟨text, htext, hvalue⟩ := resolveEncoder_json hryu t hencoder (hmembers ((name, t), v) List.mem_cons_self)
      obtain ⟨texts, htexts, hvalues⟩ := resolveMembers_json hryu fields hrest (Nat.succ.inj hlength) fun p hp =>
        hmembers p (List.mem_cons_of_mem _ hp)
      refine ⟨(keyPrefix (snakeToCamel name) ++ text) :: texts, by rw [Encoder.encodeMembers, htext, htexts]; rfl, ?_⟩
      exact List.forall_mem_cons.mpr ⟨isMember_keyPrefix _ hvalue, hvalues⟩

end

end Values

end QueryEngine
