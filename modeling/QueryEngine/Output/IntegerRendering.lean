import QueryEngine.Scan.IntegerFilters

/-!
# Output/IntegerRendering — the number a response writes, against the number a filter reads

Three of the encodings an integer column may declare read the stored value as it is stored
(plain, `decimal_string`), through its unsigned twin (`hex_number`), or through its signed twin
(`solana_tx_version`).  Filters read it at the declared sign.  `integerText` says what each encoding
writes for a number; from it follow where filter and response read one number, and where two stored
types of one value render alike.
-/

open Fallible Kleene Numerals TwosComplement

namespace QueryEngine

/-! ## The number a text denotes -/

/-- The number a rendered integer denotes: plain decimal, quoted decimal, or quoted `0x` hex. -/
def denoted (text : Bytes) : Option ℤ :=
  if text.head? = some quote then
    let inner := unquoted text
    if inner.take 2 = [48, 120] then (numeralValue 16 (inner.drop 2)).map fun n : ℕ => (n : ℤ)
    else decimalValue inner
  else decimalValue text

@[simp] theorem unquoted_quoted (text : Bytes) : unquoted (quoted text) = text := by
  simp [unquoted, quoted]

@[simp] theorem head?_quoted (text : Bytes) : (quoted text).head? = some quote := rfl

/-- **A plain number denotes itself.** -/
theorem denoted_decimal (v : ℤ) : denoted (decimal v) = some v := by
  have hhead : (decimal v).head? ≠ some quote := by
    intro h
    rcases mem_decimal (List.mem_of_mem_head? h) with hc | ⟨d, hd, hc⟩
    · exact absurd hc (by decide)
    · interval_cases d <;> exact absurd hc (by decide)
  rw [denoted, if_neg hhead, decimalValue_decimal]

/-- **A quoted number denotes itself.** -/
theorem denoted_quoted_decimal (v : ℤ) : denoted (quoted (decimal v)) = some v := by
  have hprefix : (decimal v).take 2 ≠ [48, 120] := by
    intro h
    have htake : (120 : UInt8) ∈ (decimal v).take 2 := by rw [h]; decide
    have hx := List.mem_of_mem_take htake
    rcases mem_decimal hx with hc | ⟨d, hd, hc⟩
    · exact absurd hc (by decide)
    · interval_cases d <;> exact absurd hc (by decide)
  simp [denoted, hprefix, decimalValue_decimal]

/-- **A hex number denotes the number of its bytes.** -/
theorem denoted_encodeHexBytes {bytes : Bytes} (h : bytes ≠ []) :
    denoted (encodeHexBytes bytes) = some (ofBeBytes bytes : ℤ) := by
  simp [denoted, encodeHexBytes, numeralValue_hex h]

/-! ## What each encoding writes -/

/-- The bytes a declared unsigned width pads a hex number to; eight where nothing is declared. -/
def hexWidth : Option ColumnType → ℕ
  | some .uint8 => 1
  | some .uint16 => 2
  | some .uint32 => 4
  | _ => 8

/-- A number in hex, padded to the declared width, or at eight bytes where that is too narrow. -/
def paddedHex (declared : Option ColumnType) (n : ℕ) : Bytes :=
  encodeHexBytes (beBytes (if n < 256 ^ hexWidth declared then hexWidth declared else 8) n)

/-- Padding keeps the number. -/
theorem denoted_paddedHex (declared : Option ColumnType) {n : ℕ} (h : n < 256 ^ 8) :
    denoted (paddedHex declared n) = some (n : ℤ) := by
  have hwidth : 0 < hexWidth declared := by unfold hexWidth; split <;> decide
  unfold paddedHex
  split
  · next hfit =>
    have hne : beBytes (hexWidth declared) n ≠ [] :=
      List.ne_nil_of_length_pos (by rwa [length_beBytes])
    rw [denoted_encodeHexBytes hne, ofBeBytes_beBytes hfit]
  · have hne : beBytes 8 n ≠ [] := List.ne_nil_of_length_pos (by rw [length_beBytes]; decide)
    rw [denoted_encodeHexBytes hne, ofBeBytes_beBytes h]

/-- What an encoding writes for a number: for `hex_number`, the bits read unsigned, and for
`solana_tx_version`, the bits read signed. -/
def integerText (encoding : Option JsonEncoding) (declared : Option ColumnType) (n : ℤ) : Bytes :=
  match encoding with
  | some .decimalString => quoted (decimal n)
  | some .hexNumber => paddedHex declared n.toNat
  | some .solanaTxVersion =>
    if n = -1 then [34, 108, 101, 103, 97, 99, 121, 34] else decimal n
  | _ => decimal n

/-- The number an encoding reads of a stored value. -/
def encodedNumber (encoding : Option JsonEncoding) {t : IntType} (b : t.Native) : ℤ :=
  match encoding with
  | some .hexNumber => b.toNat
  | some .solanaTxVersion => b.toInt
  | _ => t.value b

/-- The encodings an integer column declares. -/
def IsIntegerEncoding (encoding : Option JsonEncoding) : Prop :=
  encoding = none ∨ encoding = some .decimalString ∨ encoding = some .hexNumber ∨
    encoding = some .solanaTxVersion

section Encode

variable {stored : IntType} {rows : List (Slot stored.Native)} {row : ℕ} {b : stored.Native}

/-- An integer encoder writes what its writer writes for the row's bits. -/
theorem encodeInt_some (write : (t : IntType) → t.Native → Bytes)
    (hrow : rows[row]? = some (Slot.some b)) :
    encodeInt write (.scalar (.int stored) rows) row = some (write stored b) := by
  simp [encodeInt, intSlot, IntColumn.resolve, hrow, Slot.some]

/-- **The resolved encoder writes the encoding's text of the number it reads.** -/
theorem resolveEncoderFn_int (encoding : Option JsonEncoding) (declared : Option ColumnType)
    (hencoding : IsIntegerEncoding encoding)
    (hhex : encoding = some .hexNumber → ∃ c, declared = some c ∧ admitsEncoding encoding c = true)
    (hrow : rows[row]? = some (Slot.some b)) :
    ∃ encoder, resolveEncoderFn (.scalar (.int stored)) encoding declared = .ok encoder ∧
      encoder (.scalar (.int stored) rows) row =
        some (integerText encoding declared (encodedNumber encoding b)) := by
  rcases hencoding with rfl | rfl | rfl | rfl
  · have hplain : encodeStored stored (.scalar (.int stored) rows) row =
        some (decimal (stored.value b)) := by
      rw [encodeStored, Column.dataType, if_pos rfl, encodeInt_some _ hrow]
    cases stored <;> exact ⟨_, rfl, hplain⟩
  · exact ⟨encodeBignum, rfl, encodeInt_some _ hrow⟩
  · obtain ⟨c, rfl, hadmitted⟩ := hhex rfl
    have hwidth (width : ℕ) (hw : hexWidth (some c) = width) :
        encodeHexNumber width (.scalar (.int stored) rows) row =
          some (integerText (some .hexNumber) (some c) (encodedNumber (some .hexNumber) b)) := by
      rw [encodeHexNumber, encodeInt_some _ hrow, integerText, encodedNumber, Int.toNat_natCast,
        paddedHex, hw, unsignedAt]
      split <;> rfl
    cases c with
    | uint8 => exact ⟨encodeHexNumberU8, rfl, hwidth 1 rfl⟩
    | uint16 => exact ⟨encodeHexNumberU16, rfl, hwidth 2 rfl⟩
    | uint32 => exact ⟨encodeHexNumberU32, rfl, hwidth 4 rfl⟩
    | uint64 => exact ⟨encodeHexNumberU64, rfl, hwidth 8 rfl⟩
    | _ => simp [admitsEncoding] at hadmitted
  · exact ⟨encodeSolanaTxVersion, rfl, encodeInt_some _ hrow⟩

/-- The text an encoding writes denotes the number it read — `"legacy"` apart. -/
theorem denoted_integerText (encoding : Option JsonEncoding) (declared : Option ColumnType)
    (hplain : encoding = none ∨ encoding = some .decimalString ∨ encoding = some .hexNumber)
    (b : stored.Native) :
    denoted (integerText encoding declared (encodedNumber encoding b)) =
      some (encodedNumber encoding b) := by
  rcases hplain with rfl | rfl | rfl
  · exact denoted_decimal _
  · exact denoted_quoted_decimal _
  · rw [integerText, encodedNumber, Int.toNat_natCast]
    exact denoted_paddedHex declared
      (b.isLt.trans_le (Nat.pow_le_pow_right (by decide) stored.bits_le))

end Encode

/-! ## One number for filter and response -/

/-- **Filter and response read one number of a row** — the text the resolved encoder writes denotes a
number, and equality and ranges compare that number with their operand. -/
def FilterReadsRendered (declared : ColumnType) (d : IntType) (encoding : Option JsonEncoding)
    (column : Column) (row : ℕ) : Prop :=
  ∃ encoder text n, resolveEncoderFn column.dataType encoding (some declared) = .ok encoder ∧
    encoder column row = some text ∧ denoted text = some n ∧
    ∀ (w : ScalarValue) (m : ℤ), w.Denotes d.signed m → d.Holds m →
      (keepsRow (.eq w) column row = true ↔ n = m) ∧
      (keepsRow (.rangeGte w) column row = true ↔ m ≤ n) ∧
      (keepsRow (.rangeLte w) column row = true ↔ n ≤ m)

/-- Each of these encodings reads the bits, with a sign of its own. -/
theorem encodedNumber_eq_read {stored : IntType} (b : stored.Native)
    {encoding : Option JsonEncoding}
    (hplain : encoding = none ∨ encoding = some .decimalString ∨ encoding = some .hexNumber) :
    ∃ signed, encodedNumber encoding b = read signed stored.bits b.toNat := by
  rcases hplain with rfl | rfl | rfl
  · exact ⟨stored.signed, stored.value_eq_read b⟩
  · exact ⟨stored.signed, stored.value_eq_read b⟩
  · have hnat : InRange false stored.bits (b.toNat : ℤ) :=
      ⟨by positivity, by exact_mod_cast b.isLt⟩
    exact ⟨false, (read_eq_self hnat).symm⟩

/-- The readings of filter and encoder, where they are one. -/
theorem encodedNumber_eq_declaredValue {stored : IntType} (b : stored.Native) {signed : Bool}
    {encoding : Option JsonEncoding}
    (hplain : encoding = none ∨ encoding = some .decimalString ∨ encoding = some .hexNumber)
    (hhex : encoding = some .hexNumber → signed = false) :
    declaredValue (stored.value b) stored.bits signed = encodedNumber encoding b ↔
      encoding = some .hexNumber ∨ signed = stored.signed ∨ 2 * b.toNat < 2 ^ stored.bits := by
  have hb := b.isLt
  have htop : (0 ≤ stored.value b ∧ 2 * stored.value b < 2 ^ stored.bits) ↔
      2 * b.toNat < 2 ^ stored.bits := by
    have hp : ((2 ^ stored.bits : ℕ) : ℤ) = 2 ^ stored.bits := by push_cast; rfl
    unfold IntType.value
    cases stored.signed with
    | false => simp only [Bool.false_eq_true, if_false]; omega
    | true =>
      simp only [if_true, BitVec.toInt_eq_toNat_cond]
      split <;> omega
  rw [declaredValue_eq_read stored.width]
  rcases hplain with rfl | rfl | rfl
  · simpa [encodedNumber, htop] using read_eq_self_iff (s := signed) (stored.holds_value b)
  · simpa [encodedNumber, htop] using read_eq_self_iff (s := signed) (stored.holds_value b)
  · have hnat : InRange false stored.bits (b.toNat : ℤ) := ⟨by positivity, by exact_mod_cast hb⟩
    rw [hhex rfl, IntType.value_eq_read, read_read, read_eq_self hnat]
    simp [encodedNumber]

/-- **Exactly where filters and responses read one number**: always for `hex_number`, and for the
plain and the decimal encodings where the stored type has the declared sign or the top stored bit is
clear. -/
theorem filter_reads_rendered_iff (declared : ColumnType) (d : IntType)
    (hd : declared.intType = some d) (encoding : Option JsonEncoding)
    (hplain : encoding = none ∨ encoding = some .decimalString ∨ encoding = some .hexNumber)
    (hadmitted : admitsEncoding encoding declared = true) (stored : IntType)
    (rows : List (Slot stored.Native)) (row : ℕ) (b : stored.Native)
    (hrow : rows[row]? = some (Slot.some b)) :
    FilterReadsRendered declared d encoding (.scalar (.int stored) rows) row ↔
      encoding = some .hexNumber ∨ d.signed = stored.signed ∨ 2 * b.toNat < 2 ^ stored.bits := by
  have hencoding : IsIntegerEncoding encoding := by
    rcases hplain with rfl | rfl | rfl <;> simp [IsIntegerEncoding]
  have hhex : encoding = some .hexNumber → d.signed = false := by
    rintro rfl
    cases declared <;> simp [admitsEncoding] at hadmitted <;> cases hd <;> rfl
  obtain ⟨encoder, hresolve, htext⟩ := resolveEncoderFn_int encoding (some declared) hencoding
    (fun _ => ⟨declared, rfl, hadmitted⟩) hrow
  have hdenoted := denoted_integerText encoding (some declared) hplain b
  rw [← encodedNumber_eq_declaredValue b hplain hhex]
  constructor
  · rintro ⟨encoder', text, n, hresolve', htext', hn, hfilters⟩
    -- one encoder, one text, one number
    obtain rfl : encoder = encoder' := Except.ok.inj (hresolve.symm.trans hresolve')
    obtain rfl := Option.some.inj (htext.symm.trans htext')
    obtain rfl : encodedNumber encoding b = n := Option.some.inj (hdenoted.symm.trans hn)
    obtain ⟨w, hw⟩ := exists_denotes_zero d.signed
    have hzero : d.Holds 0 := by cases d <;> decide
    have hside := (hfilters w 0 hw hzero).2.1
    rw [(keepsRow_range_iff hw hrow).1] at hside
    obtain ⟨t, ht⟩ := encodedNumber_eq_read b hplain
    rw [declaredValue_eq_read stored.width, IntType.value_eq_read, read_read] at hside ⊢
    rw [ht] at hside ⊢
    exact read_eq_read_of_nonneg_iff hside
  · intro heq
    refine ⟨encoder, _, _, hresolve, htext, hdenoted, fun w m hw _ => ?_⟩
    obtain ⟨hgte, hlte⟩ := keepsRow_range_iff hw hrow
    rw [← heq]
    exact ⟨keepsRow_eq_iff hw hrow, hgte, hlte⟩

/-- A `-1` stored in sixteen signed bits is found, and rendered, as one. -/
theorem filter_reads_rendered_iff_int16 :
    FilterReadsRendered .int16 .int16 none
      (.scalar (.int .int16) [Slot.some (IntType.int16.ofInt (-1))]) 0 :=
  (filter_reads_rendered_iff .int16 .int16 rfl none (.inl rfl) rfl .int16
    [Slot.some (IntType.int16.ofInt (-1))] 0 (IntType.int16.ofInt (-1)) rfl).mpr
    (.inr (.inl rfl))

/-- A `-1` wrapped into sixteen unsigned bits is found by its number and rendered as another. -/
theorem int16_in_uint16_rendered_apart :
    ¬FilterReadsRendered .int16 .int16 none
      (.scalar (.int .uint16) [Slot.some (IntType.uint16.ofInt 65535)]) 0 := by
  rintro ⟨encoder, text, n, hresolve, htext, hn, hfilters⟩
  obtain rfl := Except.ok.inj hresolve
  obtain rfl := Option.some.inj htext
  have hrendered : n = 65535 := Option.some.inj (hn.symm.trans (by decide))
  have hfound : n = -1 := (hfilters (.int16 (-1)) (-1) ⟨.signed [-1], rfl, rfl, rfl⟩
    (by decide)).1.mp (by decide)
  omega

/-! ## One text for every stored type -/

/-- What the resolved encoder writes for a row; nothing where it refuses or panics. -/
def renders (column : Column) (row : ℕ) (encoding : Option JsonEncoding)
    (declaredType : Option ColumnType) : Option Bytes :=
  match resolveEncoderFn column.dataType encoding declaredType with
  | .ok encoder => encoder column row
  | .error _ => none

/-- The number an encoding reads of a value stored as itself: `solana_tx_version` reads a value at
or above the sign bit of an unsigned type wrapped. -/
def renderedNumber (encoding : Option JsonEncoding) (stored : IntType) (v : ℤ) : ℤ :=
  if encoding = some .solanaTxVersion ∧ ¬stored.signed ∧ 2 ^ stored.bits ≤ 2 * v then
    v - 2 ^ stored.bits
  else v

/-- A list's elements as JSON: each a plain number, or `null`. -/
def listText (vs : List (Option ℤ)) : Bytes :=
  [91] ++ List.intercalate [44] (vs.map fun v => v.elim jsonNull decimal) ++ [93]

section StoredWidth

variable {stored : IntType} {v : ℤ}

/-- **A scalar's text is its encoding's text of one number.** -/
theorem renders_scalar (encoding : Option JsonEncoding) (declaredType : Option ColumnType)
    (hencoding : IsIntegerEncoding encoding)
    (hhex : encoding = some .hexNumber →
      ∃ c, declaredType = some c ∧ admitsEncoding encoding c = true)
    (hnonneg : encoding = some .hexNumber → 0 ≤ v) (hstored : stored.Holds v)
    {rows : List (Slot stored.Native)} {row : ℕ}
    (hrow : rows[row]? = some (Slot.some (stored.ofInt v))) :
    renders (.scalar (.int stored) rows) row encoding declaredType =
      some (integerText encoding declaredType (renderedNumber encoding stored v)) := by
  obtain ⟨encoder, hresolve, htext⟩ :=
    resolveEncoderFn_int encoding declaredType hencoding hhex hrow
  have hvalue := IntType.value_ofInt hstored
  have hnat := stored.toNat_ofInt v
  have hnumber : encodedNumber encoding (stored.ofInt v) = renderedNumber encoding stored v := by
    have hin : InRange stored.signed stored.bits v := hstored
    rcases hencoding with rfl | rfl | rfl | rfl
    · simp [encodedNumber, renderedNumber, hvalue]
    · simp [encodedNumber, renderedNumber, hvalue]
    · have hv : read false stored.bits v = v :=
        (read_eq_self_iff hin).mpr (by
          have := hnonneg rfl
          cases hs : stored.signed with
          | false => exact .inl rfl
          | true => rw [hs] at hin; exact .inr ⟨this, hin.2⟩)
      simp [encodedNumber, renderedNumber, hnat, hv]
    · have hint : (stored.ofInt v).toInt = read true stored.bits v := by
        rw [BitVec.toInt_eq_toNat_bmod, ← read_true, hnat, read_read]
      simp only [encodedNumber, renderedNumber, hint]
      cases hs : stored.signed with
      | true => rw [hs] at hin; simpa using read_eq_self hin
      | false =>
        rw [hs] at hin
        rw [read_true_of_unsigned hin]
        simp only [Bool.false_eq_true, not_false_iff, true_and]
        split <;> split <;> omega
  have hdataType : (Column.scalar (.int stored) rows).dataType = .scalar (.int stored) := rfl
  rw [renders, hdataType, hresolve]
  exact htext.trans (by rw [hnumber])

/-- The plain encoder of a stored integer type. -/
theorem resolveScalarEncoder_int (t : IntType) :
    resolveScalarEncoder (.int t) = .ok (encodeStored t) := by
  cases t <;> rfl

/-- **A list's text is its elements' plain numbers**, whatever encoding the column declares. -/
theorem renders_list (encoding : Option JsonEncoding) (declaredType : Option ColumnType)
    (hencoding : IsIntegerEncoding encoding) {vs : List (Option ℤ)}
    {rows : List (Slot (List (Slot stored.Native)))} {row : ℕ} {elements : List (Slot stored.Native)}
    (hrow : rows[row]? = some (Slot.some elements))
    (helements : elements.map (fun e => e.get?.map stored.value) = vs) :
    renders (.list false (.int stored) rows) row encoding declaredType = some (listText vs) := by
  have hresolve : resolveEncoderFn (.list false (.int stored)) encoding declaredType =
      .ok encodeListValue := by
    have hvalue : resolveValueEncoder (.list false (.int stored)) = .ok encodeListValue := by
      rw [resolveValueEncoder, resolveScalarEncoder_int]
      rfl
    rcases hencoding with rfl | rfl | rfl | rfl <;> exact hvalue
  have helement : encodeStored stored (.scalar (.int stored) elements) =
      fun i => (vs.map fun v => v.elim jsonNull decimal)[i]? := by
    funext i
    rw [encodeStored, Column.dataType, if_pos rfl, ← helements]
    simp only [encodeInt, intSlot, IntColumn.resolve, Option.bind_some, List.getElem?_map,
      Option.map_map]
    refine Option.map_congr fun e _ => ?_
    simp only [Function.comp_apply, Slot.get?]
    split <;> rfl
  have hdataType : (Column.list false (.int stored) rows).dataType = .list false (.int stored) := rfl
  have hlen : elements.length = (vs.map fun v => v.elim jsonNull decimal).length := by
    rw [List.length_map, ← helements, List.length_map]
  rw [renders, hdataType, hresolve]
  simp only [encodeListValue, resolveScalarEncoder_int, encodeListWith, hrow, Option.bind_some,
    Slot.some, if_true, encodeElements, helement, hlen, mapM_range_getElem?]
  rfl

end StoredWidth

/-- **The stored type is invisible to rendering**, but for `solana_tx_version` over an unsigned type:
a scalar's text — of its own column, or spliced out of a list into a roll — is decided by the number
the encoding reads, and a list's by its elements. -/
theorem rendering_of_stored_number (declared : ColumnType) (d : IntType)
    (encoding : Option JsonEncoding) (hencoding : IsIntegerEncoding encoding)
    (hadmitted : admitsEncoding encoding declared = true) (stored stored' : IntType) :
    (∀ (declaredType : Option ColumnType) (v : ℤ) (rows : List (Slot stored.Native)) (row : ℕ)
        (rows' : List (Slot stored'.Native)) (row' : ℕ),
      (declared.intType = some d ∧ declaredType = some declared ∨
        declared.elementIntType = some d ∧ declaredType = none) →
      d.Holds v → stored.Holds v → stored'.Holds v →
      rows[row]? = some (Slot.some (stored.ofInt v)) →
      rows'[row']? = some (Slot.some (stored'.ofInt v)) →
      renders (.scalar (.int stored) rows) row encoding declaredType =
        some (integerText encoding declaredType (renderedNumber encoding stored v)) ∧
      ((encoding = some .solanaTxVersion →
          (stored.signed ∨ 2 * v < 2 ^ stored.bits) ∧ (stored'.signed ∨ 2 * v < 2 ^ stored'.bits)) →
        renders (.scalar (.int stored) rows) row encoding declaredType =
          renders (.scalar (.int stored') rows') row' encoding declaredType)) ∧
    (∀ (vs : List (Option ℤ)) (rows : List (Slot (List (Slot stored.Native)))) (row : ℕ)
        (rows' : List (Slot (List (Slot stored'.Native)))) (row' : ℕ)
        (elements : List (Slot stored.Native)) (elements' : List (Slot stored'.Native)),
      declared.elementIntType = some d →
      rows[row]? = some (Slot.some elements) → rows'[row']? = some (Slot.some elements') →
      elements.map (fun e => e.get?.map stored.value) = vs →
      elements'.map (fun e => e.get?.map stored'.value) = vs →
      renders (.list false (.int stored) rows) row encoding (some declared) =
        renders (.list false (.int stored') rows') row' encoding (some declared)) := by
  constructor
  · intro declaredType v rows row rows' row' hdeclared hd hs hs' hrow hrow'
    have hhex : encoding = some .hexNumber →
        ∃ c, declaredType = some c ∧ admitsEncoding encoding c = true := by
      rintro rfl
      rcases hdeclared with ⟨-, rfl⟩ | ⟨helement, -⟩
      · exact ⟨declared, rfl, hadmitted⟩
      · cases declared <;> simp [admitsEncoding] at hadmitted <;> cases helement
    have hnonneg : encoding = some .hexNumber → 0 ≤ v := by
      rintro rfl
      cases declared <;> simp [admitsEncoding] at hadmitted <;>
        rcases hdeclared with ⟨h, -⟩ | ⟨h, -⟩ <;> cases h <;> exact hd.1
    have htext := renders_scalar encoding declaredType hencoding hhex hnonneg hs hrow
    have htext' := renders_scalar encoding declaredType hencoding hhex hnonneg hs' hrow'
    refine ⟨htext, fun hbelow => ?_⟩
    have hnumber : ∀ t : IntType, (encoding = some .solanaTxVersion →
        (t.signed ∨ 2 * v < 2 ^ t.bits)) → renderedNumber encoding t v = v := by
      intro t ht
      rw [renderedNumber, if_neg]
      rintro ⟨hsolana, hsign, htop⟩
      rcases ht hsolana with h | h
      · exact hsign h
      · omega
    rw [htext, htext', hnumber stored fun h => (hbelow h).1, hnumber stored' fun h => (hbelow h).2]
  · intro vs rows row rows' row' elements elements' _ hrow hrow' helements helements'
    rw [renders_list encoding (some declared) hencoding hrow helements,
      renders_list encoding (some declared) hencoding hrow' helements']

/-- Five renders alike from eight unsigned bits and from sixteen signed ones. -/
theorem rendering_of_stored_number_five :
    renders (.scalar (.int .uint8) [Slot.some (IntType.uint8.ofInt 5)]) 0 (some .solanaTxVersion)
        (some .int16) =
      renders (.scalar (.int .int16) [Slot.some (IntType.int16.ofInt 5)]) 0 (some .solanaTxVersion)
        (some .int16) :=
  ((rendering_of_stored_number .int16 .int16 (some .solanaTxVersion) (.inr (.inr (.inr rfl))) rfl
    .uint8 .int16).1 (some .int16) 5 _ 0 _ 0 (.inl ⟨rfl, rfl⟩) (by decide) (by decide) (by decide)
    rfl rfl).2 fun _ => ⟨.inr (by decide), .inl rfl⟩

/-- Two hundred does not: the version's eight unsigned bits are read with a sign. -/
theorem solana_tx_version_reads_signed :
    IntType.int16.Holds 200 ∧ IntType.uint8.Holds 200 ∧
    renders (.scalar (.int .uint8) [Slot.some (IntType.uint8.ofInt 200)]) 0 (some .solanaTxVersion)
        (some .int16) ≠
      renders (.scalar (.int .int16) [Slot.some (IntType.int16.ofInt 200)]) 0
        (some .solanaTxVersion) (some .int16) := by
  refine ⟨by decide, by decide, by decide⟩

end QueryEngine
