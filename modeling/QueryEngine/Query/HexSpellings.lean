import QueryEngine.Output.IntegerRendering
import QueryEngine.Query.Filters

/-!
# Query/HexSpellings — one value, however it is spelled

A value of an unsigned column goes out as `0x` and hex digits of the declared width, and comes back as that text,
as a number, or as a discriminator of that many bytes; each compiles to the one predicate that keeps the rows of
the value.  What the engine writes in hex, both its readers read back (`hex_spellings_agree`).
-/

open Numerals

namespace QueryEngine

/-! ## Readers -/

/-- The bytes of an even number of hex digits, as the crate that decodes them has them. -/
structure DecodesPairs (hexDecoder : Bytes → Option Bytes) : Prop where
  even : ∀ digits : Bytes, digits.length % 2 = 0 →
    hexDecoder digits = if digits.all fun b => (hexDigit b).isSome then some (hexDecode digits) else none

/-- The digits of `0x…` text; all of it where nothing stands before them. -/
def stripHexPrefix : Bytes → Bytes
  | 48 :: 120 :: digits => digits
  | digits => digits

/-- Decode `0x…` text: an odd digit count reads as if it had a leading zero. -/
def decodeHex (hexDecoder : Bytes → Option Bytes) (text : Bytes) : Option Bytes :=
  let digits := stripHexPrefix text
  if digits.length % 2 = 0 then hexDecoder digits
  else
    match digits with
    | first :: rest => (hexDecoder [48, first]).bind fun head => (hexDecoder rest).map (head ++ ·)
    | [] => none

/-- The number of hex digits, the first highest. -/
def hexValue (digits : Bytes) : ℕ := digits.foldl (fun n b => 16 * n + (hexDigit b).getD 0) 0

/-! ## Digits -/

theorem hexDigit_digitChar {d : ℕ} (h : d < 16) : hexDigit (digitChar d) = some d := by
  interval_cases d <;> decide

theorem hexDigit_lt (b : UInt8) : (hexDigit b).getD 0 < 16 := by
  unfold hexDigit
  split_ifs with hdec hlow hup
  all_goals
    simp only [UInt8.le_iff_toNat_le, UInt8.reduceToNat, Option.getD_some, Option.getD_none] at *
    omega

/-- **Hex text decodes to the bytes it is of.** -/
theorem hexDecode_hex : ∀ bytes : Bytes, hexDecode (hex bytes) = bytes
  | [] => rfl
  | b :: bytes => by
    have hb := b.toNat_lt
    have hbyte : UInt8.ofNat (16 * (b.toNat / 16) + b.toNat % 16) = b := by
      rw [Nat.div_add_mod]
      exact UInt8.ofNat_toNat
    rw [hex, List.flatMap_cons, hexByte]
    change UInt8.ofNat _ :: hexDecode (hex bytes) = _
    rw [hexDigit_digitChar (by omega), hexDigit_digitChar (by omega), Option.getD_some, Option.getD_some, hbyte,
      hexDecode_hex bytes]

theorem isSome_hexDigit_hex (bytes : Bytes) : (hex bytes).all (fun b => (hexDigit b).isSome) = true := by
  refine List.all_eq_true.mpr fun c hc => ?_
  obtain ⟨b, -, hc⟩ := List.mem_flatMap.mp hc
  have hb := b.toNat_lt
  simp only [hexByte, List.mem_cons, List.not_mem_nil, or_false] at hc
  rcases hc with rfl | rfl
  · rw [hexDigit_digitChar (by omega)]
    rfl
  · rw [hexDigit_digitChar (by omega)]
    rfl

theorem length_hex (bytes : Bytes) : (hex bytes).length = 2 * bytes.length := by
  rw [hex, List.length_flatMap]
  simp [hexByte, Nat.mul_comm]

/-- **What was written in hex parses back.** -/
theorem parseHex_hex (bytes : Bytes) : parseHex ([48, 120] ++ hex bytes) = some bytes := by
  have hliteral : isHexLiteral ([48, 120] ++ hex bytes) = true := by
    change ((hex bytes).length % 2 == 0 && (hex bytes).all fun b => (hexDigit b).isSome) = true
    rw [isSome_hexDigit_hex, length_hex]
    simp
  rw [parseHex, if_pos hliteral]
  exact congrArg some (hexDecode_hex bytes)

theorem isSome_parseHex (s : Bytes) : (parseHex s).isSome = isHexLiteral s := by
  unfold parseHex
  split
  · next h =>
    unfold isHexLiteral at h
    cases hdigits : hexDigits s with
    | none => rw [hdigits] at h; exact absurd h (by simp)
    | some digits => rw [Option.map_some, Option.isSome_some]; exact (by assumption : isHexLiteral s = true).symm
  · next h => exact (Bool.not_eq_true _ ▸ h : isHexLiteral s = false).symm

theorem hexValue_cons (d : UInt8) (digits : Bytes) :
    hexValue (d :: digits) = (hexDigit d).getD 0 * 16 ^ digits.length + hexValue digits := by
  have hfold : ∀ (digits : Bytes) (n : ℕ), digits.foldl (fun n b => 16 * n + (hexDigit b).getD 0) n =
      n * 16 ^ digits.length + digits.foldl (fun n b => 16 * n + (hexDigit b).getD 0) 0 := by
    intro digits
    induction digits with
    | nil => simp
    | cons d digits ih =>
      intro n
      rw [List.foldl_cons, ih (16 * n + _), List.foldl_cons, ih (16 * 0 + _), List.length_cons, pow_succ]
      ring
  unfold hexValue
  rw [List.foldl_cons, hfold]
  simp

theorem ofBeBytes_cons (b : UInt8) (bytes : Bytes) :
    ofBeBytes (b :: bytes) = b.toNat * 256 ^ bytes.length + ofBeBytes bytes := by
  have happend : ∀ low : Bytes, ofLeBytes (low ++ [b]) = ofLeBytes low + 256 ^ low.length * b.toNat := by
    intro low
    induction low with
    | nil => simp [ofLeBytes]
    | cons c low ih =>
      rw [List.cons_append, ofLeBytes, ih, ofLeBytes, List.length_cons, pow_succ]
      ring
  rw [ofBeBytes, List.reverse_cons, happend, List.length_reverse, ofBeBytes]
  ring

/-- Pairs of digits weigh what their bytes do. -/
theorem pow_pairs {n : ℕ} (h : n % 2 = 0) : 256 ^ (n / 2) = 16 ^ n := by
  rw [show (256 : ℕ) = 16 ^ 2 by rfl, ← pow_mul]
  congr 1
  omega

/-- **Pairs of digits are the bytes of their number.** -/
theorem hexDecode_spec : ∀ digits : Bytes, digits.length % 2 = 0 →
    (hexDecode digits).length = digits.length / 2 ∧ ofBeBytes (hexDecode digits) = hexValue digits
  | [], _ => ⟨rfl, rfl⟩
  | [_], h => absurd h (by simp)
  | hi :: lo :: digits, h => by
    have hhi := hexDigit_lt hi
    have hlo := hexDigit_lt lo
    have hrest : digits.length % 2 = 0 := by
      rw [List.length_cons, List.length_cons] at h
      omega
    obtain ⟨hlength, hvalue⟩ := hexDecode_spec digits hrest
    refine ⟨?_, ?_⟩
    · rw [hexDecode, List.length_cons, hlength, List.length_cons, List.length_cons]
      omega
    · have hbyte : (UInt8.ofNat (16 * (hexDigit hi).getD 0 + (hexDigit lo).getD 0)).toNat =
          16 * (hexDigit hi).getD 0 + (hexDigit lo).getD 0 := by
        rw [UInt8.toNat_ofNat']
        exact Nat.mod_eq_of_lt (by omega)
      rw [hexDecode, ofBeBytes_cons, hbyte, hlength, pow_pairs hrest, hvalue, hexValue_cons, hexValue_cons,
        List.length_cons,
        pow_succ]
      ring

section Decoder

variable {hexDecoder : Bytes → Option Bytes} (hdecodes : DecodesPairs hexDecoder)

include hdecodes

theorem decodeHex_hex (bytes : Bytes) : decodeHex hexDecoder ([48, 120] ++ hex bytes) = some bytes := by
  have heven : (hex bytes).length % 2 = 0 := by rw [length_hex]; omega
  change (if (hex bytes).length % 2 = 0 then hexDecoder (hex bytes) else _) = _
  rw [if_pos heven, hdecodes.even _ heven, if_pos (isSome_hexDigit_hex bytes), hexDecode_hex]

/-- A digit alone reads as a byte of it. -/
theorem hexDecoder_leadingZero {first : UInt8} (hfirst : (hexDigit first).isSome = true) :
    hexDecoder [48, first] = some [UInt8.ofNat ((hexDigit first).getD 0)] := by
  have hzero : hexDigit 48 = some 0 := by decide
  have hdecoded : hexDecode [48, first] = [UInt8.ofNat ((hexDigit first).getD 0)] := by
    change [UInt8.ofNat (16 * (hexDigit 48).getD 0 + (hexDigit first).getD 0)] = _
    rw [hzero, Option.getD_some, Nat.mul_zero, Nat.zero_add]
  rw [hdecodes.even [48, first] (by simp), if_pos (by simp [hfirst, hzero]), hdecoded]

/-- **Hex digits denote one number**, a leading zero or none. -/
theorem decodeHex_spec {text digits : Bytes} (hstrip : stripHexPrefix text = digits)
    (hdigits : digits.all (fun b => (hexDigit b).isSome) = true) :
    ∃ bytes, decodeHex hexDecoder text = some bytes ∧ bytes.length = (digits.length + 1) / 2 ∧
      ofBeBytes bytes = hexValue digits := by
  change ∃ bytes, (if (stripHexPrefix text).length % 2 = 0 then hexDecoder (stripHexPrefix text) else
    match stripHexPrefix text with
    | first :: rest => (hexDecoder [48, first]).bind fun head => (hexDecoder rest).map (head ++ ·)
    | [] => none) = some bytes ∧ _
  rw [hstrip]
  by_cases heven : digits.length % 2 = 0
  · rw [if_pos heven, hdecodes.even _ heven, if_pos hdigits]
    obtain ⟨hlength, hvalue⟩ := hexDecode_spec digits heven
    exact ⟨_, rfl, by rw [hlength]; omega, hvalue⟩
  · rw [if_neg heven]
    cases digits with
    | nil => exact absurd rfl heven
    | cons first rest =>
      rw [List.all_cons, Bool.and_eq_true] at hdigits
      obtain ⟨hfirst, hrest⟩ := hdigits
      have hrestEven : rest.length % 2 = 0 := by
        rw [List.length_cons] at heven
        omega
      have hlow := hexDigit_lt first
      have hbyte : (UInt8.ofNat ((hexDigit first).getD 0)).toNat = (hexDigit first).getD 0 := by
        rw [UInt8.toNat_ofNat']
        exact Nat.mod_eq_of_lt (by omega)
      obtain ⟨hlength, hvalue⟩ := hexDecode_spec rest hrestEven
      refine ⟨[UInt8.ofNat ((hexDigit first).getD 0)] ++ hexDecode rest, ?_, ?_, ?_⟩
      · change (hexDecoder [48, first]).bind _ = _
        rw [hexDecoder_leadingZero hdecodes hfirst, Option.bind_some, hdecodes.even _ hrestEven, if_pos hrest,
          Option.map_some]
      · rw [List.length_append, hlength, List.length_singleton, List.length_cons]
        omega
      · rw [List.singleton_append, ofBeBytes_cons, hbyte, hlength, hvalue, pow_pairs hrestEven, hexValue_cons]

end Decoder

/-- Digits alone are read whole: what stands in a prefix is no digit. -/
theorem stripHexPrefix_digits {digits : Bytes} (hdigits : digits.all (fun b => (hexDigit b).isSome) = true) :
    stripHexPrefix digits = digits := by
  unfold stripHexPrefix
  split
  · next rest =>
    simp only [List.all_cons, Bool.and_eq_true] at hdigits
    exact absurd hdigits.2.1 (by decide)
  · rfl

/-! ## Filters -/

/-- **A list of one number keeps the rows whose bits are it.** -/
theorem keepsRow_listedOne {t : IntType} (ht : t.signed = false) {n : ℕ} (hn : t.Holds n) (stored : IntType)
    (rows : List (Slot stored.Native)) (row : ℕ) :
    keepsRow (.inList (.scalar (.int t) [⟨t.ofInt n, true⟩])) (.scalar (.int stored) rows) row = true ↔
      ∃ b, rows[row]? = some (Slot.some b) ∧ b.toNat = n := by
  have hread : ∃ mask, (ArrayPredicate.inList (.scalar (.int t) [⟨t.ofInt n, true⟩])).evaluate
      (.scalar (.int stored) rows) = .ok mask := ⟨_, rfl⟩
  cases hrow : rows[row]? with
  | none =>
    rw [keepsRow_eq_any row hread]
    simp [Column.cells, hrow]
  | some slot =>
    obtain ⟨b, valid⟩ := slot
    cases valid with
    | false =>
      have hcell : (Column.scalar (.int stored) rows).cells[row]? = some (.scalar (.int stored) none) := by
        simp [Column.cells, hrow]
      rw [keepsRow_eq_holds hread hcell]
      constructor
      · intro h
        exact absurd h (by simp [ArrayPredicate.holds, holdsInList, stringSet, listedInts, Cell.holdsInts])
      · rintro ⟨c, hc, -⟩
        exact absurd (congrArg (Option.map Slot.valid) hc) (by simp [Slot.some])
    | true =>
      have hbits : declaredValue (stored.value b) stored.bits false = b.toNat :=
        (encodedNumber_eq_declaredValue b (.inr (.inr rfl)) fun _ => rfl).mpr (.inl rfl)
      rw [keepsRow_inList_iff t _ hrow, ht, hbits]
      simp only [List.mem_singleton, exists_eq_left, IntType.value_ofInt hn]
      constructor
      · intro h
        exact ⟨b, rfl, by exact_mod_cast h.symm⟩
      · rintro ⟨c, hc, hvalue⟩
        have hcb : b = c := congrArg Slot.value (Option.some.inj hc)
        rw [hcb, hvalue]

section Spelled

variable {t : IntType} {n : ℕ} {text : Text} (column : String)

/-- The predicate every spelling of a number compiles to. -/
def numberPredicate (column : String) (t : IntType) (n : ℕ) : ColumnPredicate :=
  colInList column (.scalar (.int t) [⟨t.ofInt n, true⟩])

/-- A number in its declared width, spelled in hex. -/
def SpellsHex (text : Text) (t : IntType) (n : ℕ) : Prop :=
  text.bytes = [48, 120] ++ hex (beBytes (t.bits / 8) n)

theorem compileUnsignedInList_text (hspells : SpellsHex text t n) (hn : n < 256 ^ (t.bits / 8)) :
    compileUnsignedInList column [.string text] t = .ok (some (numberPredicate column t n)) := by
  have hsplit : splitBinaryInList column [.string text] = .ok ([beBytes (t.bits / 8) n], []) := by
    change (.ok ((parseHex text.bytes).toList ++ [], []) : Result (List Bytes × List ℤ)) = _
    rw [hspells, parseHex_hex]
    rfl
  unfold compileUnsignedInList
  rw [hsplit]
  simp [bind, Except.bind, length_beBytes, ofBeBytes_beBytes hn, inListOf, Column.len, numberPredicate]

theorem compileUnsignedInList_number (hn : t.Holds n) (hword : n < 2 ^ 64) :
    compileUnsignedInList column [.int n] t = .ok (some (numberPredicate column t n)) := by
  have hinteger : (Json.int n).asInteger = some (n : ℤ) := by
    rw [Json.asInteger, if_pos (by constructor <;> omega)]
  have hsplit : splitBinaryInList column [.int n] = .ok ([], [(n : ℤ)]) := by
    rw [splitBinaryInList, hinteger]
    rfl
  unfold compileUnsignedInList
  rw [hsplit]
  simp [bind, Except.bind, hn, inListOf, Column.len, numberPredicate]

theorem compileDiscriminator_text (hspells : SpellsHex text t n) (hn : n < 256 ^ (t.bits / 8))
    (ht : t ∈ [.uint8, .uint16, .uint32, .uint64]) {columns : Dict String}
    (hcolumn : columns.get? (toString (t.bits / 8)) = some column) :
    compileDiscriminator (.array [.string text]) columns = .ok (some [[numberPredicate column t n]]) := by
  have hlength : (beBytes (t.bits / 8) n).length = t.bits / 8 := length_beBytes _ _
  have hwidth : 0 < t.bits / 8 ∧ t.bits / 8 ≤ maxDiscriminatorBytes := by
    fin_cases ht <;> decide
  have hne : (beBytes (t.bits / 8) n).isEmpty = false :=
    List.isEmpty_eq_false_iff.mpr (List.ne_nil_of_length_pos (by omega))
  have hbytes : discriminatorBytes [.string text] = .ok [beBytes (t.bits / 8) n] := by
    have hparse : parseHex text.bytes = some (beBytes (t.bits / 8) n) := by rw [hspells, parseHex_hex]
    simp [discriminatorBytes, Json.asText, hparse, bind, Except.bind, engineEnsure, hlength, hwidth.2]
    rfl
  have hcompiled : discriminatorColumn (t.bits / 8) [beBytes (t.bits / 8) n] =
      .scalar (.int t) [⟨t.ofInt n, true⟩] := by
    have hstored : ∀ values : List Bytes, discriminatorColumn (t.bits / 8) values =
        .scalar (.int t) (values.map fun b => ⟨t.ofInt (ofBeBytes b), true⟩) := by
      fin_cases ht <;> exact fun _ => rfl
    rw [hstored, List.map_singleton, ofBeBytes_beBytes hn]
  have hget : columns.get? (t.bits / 8).repr = some column := hcolumn
  unfold compileDiscriminator
  simp only [Json.asArray, Option.elim_some, bind, Except.bind, hbytes]
  simp [hne, hlength, hget, Lookup.sortDedup, hcompiled, numberPredicate, colInList]

theorem compileMembership_of_inList {desc : ColumnDescription} {value : Json} {p : ColumnPredicate} (key : String)
    (hbool : value.asBool = none) (hlone : value.asArray = none) (hscalar : isFilterScalar value = true)
    (h : compileInList column [value] desc = .ok (some p)) :
    compileMembership key column value desc = .ok (.predicate p) := by
  have hlist : listOf value = [value] := by rw [listOf, hlone, Option.getD_none]
  unfold compileMembership
  rw [hbool, hlist]
  simp [hscalar, bind, Except.bind, h]

/-- An unsigned column's list is compiled at its type. -/
theorem compileInList_unsigned {desc : ColumnDescription} (hdeclared : desc.dataType.intType = some t)
    (hunsigned : t.signed = false) (values : List Json) :
    compileInList column values desc = compileUnsignedInList column values t := by
  unfold compileInList
  cases hty : desc.dataType <;> rw [hty] at hdeclared <;> cases hdeclared
  all_goals first | rfl | exact absurd hunsigned (by decide)

end Spelled

/-- The declared unsigned types are those of a discriminator's lengths. -/
theorem declared_unsigned {declared : ColumnType} {t : IntType} (hdeclared : declared.intType = some t)
    (hunsigned : t.signed = false) : t ∈ [.uint8, .uint16, .uint32, .uint64] ∧
      admitsEncoding (some .hexNumber) declared = true ∧ hexWidth (some declared) = t.bits / 8 := by
  cases declared <;> cases hdeclared
  all_goals first | exact ⟨by decide, rfl, rfl⟩ | exact absurd hunsigned (by decide)

theorem bytes_unsigned {t : IntType} (ht : t ∈ [.uint8, .uint16, .uint32, .uint64]) :
    256 ^ (t.bits / 8) = 2 ^ t.bits ∧ t.bits ≤ 64 ∧ t.bits / 8 ≤ 8 := by
  fin_cases ht <;> decide

/-- **A value is rendered in its declared width.** -/
theorem exists_spellsHex {declared : ColumnType} {t : IntType} (hdeclared : declared.intType = some t)
    (hunsigned : t.signed = false) {stored : IntType} {rows : List (Slot stored.Native)} {row : ℕ}
    {b : stored.Native} (hrow : rows[row]? = some (Slot.some b)) (hfits : b.toNat < 256 ^ (t.bits / 8)) :
    ∃ (encoder : EncoderFn) (text : Text),
      resolveEncoderFn (.scalar (.int stored)) (some .hexNumber) (some declared) = .ok encoder ∧
      encoder (.scalar (.int stored) rows) row = some (quoted text.bytes) ∧ SpellsHex text t b.toNat := by
  obtain ⟨hlisted, hadmits, hwidth⟩ := declared_unsigned hdeclared hunsigned
  obtain ⟨-, -, hbytes⟩ := bytes_unsigned hlisted
  obtain ⟨encoder, hresolve, hencode⟩ := resolveEncoderFn_int (some .hexNumber)
    (some declared) (.inr (.inr (.inl rfl))) (fun _ => ⟨_, rfl, hadmits⟩) hrow
  have hshort : ([48, 120] ++ hex (beBytes (t.bits / 8) b.toNat)).length < 2 ^ 32 := by
    rw [List.length_append, length_hex, length_beBytes]
    simp only [List.length_cons, List.length_nil]
    omega
  refine ⟨encoder, ⟨_, hshort⟩, hresolve, ?_, rfl⟩
  rw [hencode, integerText, encodedNumber, Int.toNat_natCast, paddedHex, hwidth, if_pos hfits]
  rfl

/-- **Hex spellings agree.**  The text a column's encoder renders compiles, as a filter, to the predicate its number
does, and as a discriminator of that many bytes; it keeps the rows of the value.  What is written in hex both
readers read back, a literal is what parses, and digits of any count denote one number. -/
theorem hex_spellings_agree (hexDecoder : Bytes → Option Bytes) (hdecodes : DecodesPairs hexDecoder) :
    (∀ (desc : ColumnDescription) (t : IntType), desc.dataType.intType = some t → t.signed = false →
      ∀ (stored : IntType) (rows : List (Slot stored.Native)) (row : ℕ) (b : stored.Native),
        rows[row]? = some (Slot.some b) → b.toNat < 2 ^ t.bits →
        ∃ (encoder : EncoderFn) (text : Text),
          resolveEncoderFn (.scalar (.int stored)) (some .hexNumber) (some desc.dataType) = .ok encoder ∧
          encoder (.scalar (.int stored) rows) row = some (quoted text.bytes) ∧
          ∀ key column, ∃ p : ColumnPredicate, p.column = column ∧
            compileMembership key column (.string text) desc = .ok (.predicate p) ∧
            compileMembership key column (.int b.toNat) desc = .ok (.predicate p) ∧
            (∀ columns : Dict String, columns.get? (toString (t.bits / 8)) = some column →
              compileDiscriminator (.array [.string text]) columns = .ok (some [[p]])) ∧
            ∀ (read : IntType) (values : List (Slot read.Native)) (i : ℕ),
              keepsRow p.predicate (.scalar (.int read) values) i = true ↔
                ∃ c, values[i]? = some (Slot.some c) ∧ c.toNat = b.toNat) ∧
    (∀ bytes : Bytes, ∃ text, encodeHexBytes bytes = quoted text ∧ parseHex text = some bytes ∧
      decodeHex hexDecoder text = some bytes) ∧
    (∀ s : Bytes, (parseHex s).isSome = isHexLiteral s) ∧
    ∀ digits : Bytes, digits.all (fun b => (hexDigit b).isSome) = true →
      ∀ text ∈ [digits, [48, 120] ++ digits], ∃ bytes, decodeHex hexDecoder text = some bytes ∧
        bytes.length = (digits.length + 1) / 2 ∧ ofBeBytes bytes = hexValue digits := by
  refine ⟨?_, ?_, isSome_parseHex, ?_⟩
  · intro desc t hdeclared hunsigned stored rows row b hrow hfits
    have hlisted := (declared_unsigned hdeclared hunsigned).1
    obtain ⟨hpow, hbits, -⟩ := bytes_unsigned hlisted
    have hn : b.toNat < 256 ^ (t.bits / 8) := by rw [hpow]; exact hfits
    have hword : b.toNat < 2 ^ 64 := hfits.trans_le (Nat.pow_le_pow_right (by decide) hbits)
    have hholds : t.Holds b.toNat := by
      have hrange : TwosComplement.InRange false t.bits (b.toNat : ℤ) := ⟨by positivity, by exact_mod_cast hfits⟩
      rw [IntType.Holds, hunsigned]
      exact hrange
    obtain ⟨encoder, text, hresolve, hencode, hspells⟩ := exists_spellsHex hdeclared hunsigned hrow hn
    refine ⟨encoder, text, hresolve, hencode, fun key column =>
      ⟨numberPredicate column t b.toNat, rfl, ?_, ?_, ?_, ?_⟩⟩
    · refine compileMembership_of_inList column key rfl rfl rfl ?_
      rw [compileInList_unsigned column hdeclared hunsigned]
      exact compileUnsignedInList_text column hspells hn
    · refine compileMembership_of_inList column key rfl rfl ?_ ?_
      · rw [isFilterScalar, Json.asInteger, if_pos (by constructor <;> omega)]
        rfl
      · rw [compileInList_unsigned column hdeclared hunsigned]
        exact compileUnsignedInList_number column hholds hword
    · exact fun columns hcolumn => compileDiscriminator_text column hspells hn hlisted hcolumn
    · exact fun read values i => keepsRow_listedOne hunsigned hholds read values i
  · exact fun bytes => ⟨_, rfl, parseHex_hex bytes, decodeHex_hex hdecodes bytes⟩
  · intro digits hdigits text htext
    simp only [List.mem_cons, List.not_mem_nil, or_false] at htext
    obtain rfl | rfl := htext
    · exact decodeHex_spec hdecodes (stripHexPrefix_digits hdigits) hdigits
    · exact decodeHex_spec hdecodes rfl hdigits

/-- A checked decoding of pairs. -/
def decodePairs (digits : Bytes) : Option Bytes :=
  if digits.length % 2 = 0 ∧ (digits.all fun b => (hexDigit b).isSome) = true then some (hexDecode digits) else none

theorem decodesPairs_decodePairs : DecodesPairs decodePairs where
  even := fun digits heven => by simp only [decodePairs, heven, true_and]

theorem hex_spellings_agree_byteColumn : ∃ (encoder : EncoderFn) (text : Text),
    resolveEncoderFn (.scalar (.int .int16)) (some .hexNumber) (some .uint8) = .ok encoder ∧
    encoder (.scalar (.int .int16) [⟨200, true⟩]) 0 = some (quoted text.bytes) ∧
    ∃ p : ColumnPredicate, p.column = "version" ∧
      compileMembership "version" "version" (.string text) ⟨.uint8, some .hexNumber, false, false⟩ =
        .ok (.predicate p) ∧
      keepsRow p.predicate (.scalar (.int .int16) [⟨7, true⟩, ⟨200, true⟩]) 1 = true := by
  obtain ⟨encoder, text, hresolve, hencode, hfilter⟩ := (hex_spellings_agree decodePairs decodesPairs_decodePairs).1
    ⟨.uint8, some .hexNumber, false, false⟩ .uint8 rfl rfl .int16 [⟨200, true⟩] 0 200#16 rfl (by decide)
  obtain ⟨p, hcolumn, hcompiled, -, -, hkept⟩ := hfilter "version" "version"
  exact ⟨encoder, text, hresolve, hencode, p, hcolumn, hcompiled,
    (hkept .int16 [⟨7, true⟩, ⟨200, true⟩] 1).mpr ⟨200#16, rfl, rfl⟩⟩

end QueryEngine
