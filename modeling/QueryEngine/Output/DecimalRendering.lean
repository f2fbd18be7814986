import QueryEngine.Output.NestedEncoder
import QueryEngine.Library.FixedPoint

/-!
# Output/DecimalRendering — a decimal of a scale, and the number its text denotes

A stored decimal is an integer and a scale: so many powers of ten below it, or above it where the scale is negative.
Whole part and fraction are split by a truncating division, which keeps the sign in the whole part alone and loses it
where that is zero.  A negative scale is written as no scale at all.
-/

open Numerals

namespace QueryEngine

/-- What an `i128` holds, if it does. -/
def i128 (v : ℤ) : Option ℤ := if -2 ^ 127 ≤ v ∧ v < 2 ^ 127 then some v else none

/-- A decimal of a scale, each operation checked: `none` where one leaves the 128 bits. -/
def writeDecimal128Checked (v scale : ℤ) : Option Bytes :=
  if scale ≤ 0 then some (decimal v)
  else do
    let divisor ← i128 (10 ^ scale.toNat)
    let intPart ← i128 (v.tdiv divisor)
    let remainder ← i128 (v.tmod divisor)
    let fraction := decimal remainder.natAbs
    some ((if v < 0 ∧ intPart = 0 then [45] else []) ++ decimal intPart ++ [46] ++
      List.replicate (scale.toNat - fraction.length) 48 ++ fraction)

/-- **A decimal is rendered exactly**: no operation overflows, the text between the quotes denotes the value at its
scale, and below a point it has as many digits as the scale says. -/
def RendersDecimal (v : BitVec 128) (scale : ℤ) : Prop :=
  ∃ text, writeDecimal128Checked v.toInt scale = some text ∧
    encodeBignumDecimal scale (.decimal128 v.toInt) = some (quoted text) ∧
    fixedValue text = some ((v.toInt : ℚ) * 10 ^ (-scale)) ∧
    (0 < scale → ∃ fraction, text = signText (decide (v.toInt < 0)) ++
      (numeral 10 (v.toInt.natAbs / 10 ^ scale.toNat) ++ 46 :: fraction) ∧
        fraction.length = scale ∧ ∀ c ∈ fraction, IsDigit c)

/-! ## No overflow -/

theorem i128_of_natAbs {v : ℤ} (h : v.natAbs < 2 ^ 127) : i128 v = some v := by
  rw [i128, if_pos (by omega)]

theorem natAbs_toInt_le (v : BitVec 128) : v.toInt.natAbs ≤ 2 ^ 127 := by
  have hlow := BitVec.le_toInt v
  have hhigh := BitVec.toInt_lt (x := v)
  norm_num at hlow hhigh ⊢
  omega

/-- **No operation overflows**, of any value and any scale up to thirty-eight. -/
theorem writeDecimal128Checked_eq (v : BitVec 128) {scale : ℤ} (h : scale ≤ 38) :
    writeDecimal128Checked v.toInt scale = some (writeDecimal128 v.toInt scale) := by
  unfold writeDecimal128Checked writeDecimal128
  split
  · rfl
  · next hscale =>
    have hv := natAbs_toInt_le v
    have hten : 10 ≤ 10 ^ scale.toNat := Nat.le_self_pow (by omega) 10
    have hpow : 10 ^ scale.toNat ≤ 10 ^ 38 := Nat.pow_le_pow_right (by decide) (by omega)
    have hcast : ((10 : ℤ) ^ scale.toNat).natAbs = 10 ^ scale.toNat := by rw [Int.natAbs_pow]; rfl
    have hdivisor : i128 (10 ^ scale.toNat) = some (10 ^ scale.toNat) := by
      refine i128_of_natAbs ?_
      rw [hcast]
      exact hpow.trans_lt (by norm_num)
    have hint : i128 (v.toInt.tdiv (10 ^ scale.toNat)) = some (v.toInt.tdiv (10 ^ scale.toNat)) := by
      refine i128_of_natAbs ?_
      rw [Int.natAbs_tdiv, hcast]
      calc v.toInt.natAbs / 10 ^ scale.toNat ≤ v.toInt.natAbs / 10 := Nat.div_le_div_left hten (by decide)
        _ ≤ 2 ^ 127 / 10 := Nat.div_le_div_right hv
        _ < 2 ^ 127 := by norm_num
    have hmod : i128 (v.toInt.tmod (10 ^ scale.toNat)) = some (v.toInt.tmod (10 ^ scale.toNat)) := by
      refine i128_of_natAbs ?_
      rw [Int.natAbs_tmod, hcast]
      calc v.toInt.natAbs % 10 ^ scale.toNat < 10 ^ scale.toNat := Nat.mod_lt _ (by positivity)
        _ ≤ 10 ^ 38 := hpow
        _ < 2 ^ 127 := by norm_num
    simp only [hdivisor, hint, hmod, Option.bind_eq_bind, Option.bind_some]

/-! ## The text -/

/-- The whole part carries the sign, or a sign is put before its zero. -/
theorem signed_tdiv (v : ℤ) (d : ℕ) :
    (if v < 0 ∧ v.tdiv d = 0 then [45] else []) ++ decimal (v.tdiv d) =
      signText (decide (v < 0)) ++ numeral 10 (v.natAbs / d) := by
  have habs : (v.tdiv d).natAbs = v.natAbs / d := by rw [Int.natAbs_tdiv, Int.natAbs_natCast]; rfl
  rw [decimal_eq, habs]
  rcases lt_or_ge v 0 with hneg | hpos
  · have hle : v.tdiv d ≤ 0 := by
      have hneg' := Int.tdiv_nonneg (show 0 ≤ -v by omega) (Int.natCast_nonneg d)
      rw [Int.neg_tdiv] at hneg'
      omega
    by_cases hzero : v.tdiv d = 0
    · simp [hneg, hzero, signText]
    · simp [hneg, hzero, hle.lt_of_ne hzero, signText]
  · have hge : 0 ≤ v.tdiv d := Int.tdiv_nonneg hpos (Int.natCast_nonneg d)
    simp [hpos.not_gt, hge.not_gt, signText]

/-- **A scale below zero points at digits**: sign, whole part, and as many digits as the scale. -/
theorem writeDecimal128_eq (v : ℤ) {scale : ℤ} (h : 0 < scale) :
    writeDecimal128 v scale = signText (decide (v < 0)) ++ (numeral 10 (v.natAbs / 10 ^ scale.toNat) ++
      46 :: zeroPadded scale.toNat (numeral 10 (v.natAbs % 10 ^ scale.toNat))) := by
  have hcast : (10 : ℤ) ^ scale.toNat = ((10 ^ scale.toNat : ℕ) : ℤ) := by push_cast; rfl
  have hmod : (v.tmod ((10 ^ scale.toNat : ℕ) : ℤ)).natAbs = v.natAbs % 10 ^ scale.toNat := by
    rw [Int.natAbs_tmod, Int.natAbs_natCast]
  have hfraction : decimal ((v.natAbs % 10 ^ scale.toNat : ℕ) : ℤ) = numeral 10 (v.natAbs % 10 ^ scale.toNat) := by
    rw [decimal, if_neg (by omega), Int.natAbs_natCast]
  rw [writeDecimal128, if_neg (by omega)]
  simp only [hcast, hmod, hfraction, signed_tdiv, zeroPadded, List.append_assoc, List.cons_append, List.nil_append]

/-- A whole part and a fraction of a value are the value at its scale. -/
theorem value_at_scale (v : ℤ) (k : ℕ) :
    (if v < 0 then -(((v.natAbs / 10 ^ k : ℕ) : ℚ) + ((v.natAbs % 10 ^ k : ℕ) : ℚ) / 10 ^ k)
      else ((v.natAbs / 10 ^ k : ℕ) : ℚ) + ((v.natAbs % 10 ^ k : ℕ) : ℚ) / 10 ^ k) = (v : ℚ) / 10 ^ k := by
  have hsplit : ((v.natAbs / 10 ^ k : ℕ) : ℚ) + ((v.natAbs % 10 ^ k : ℕ) : ℚ) / 10 ^ k = (v.natAbs : ℚ) / 10 ^ k := by
    have hparts : ((10 ^ k * (v.natAbs / 10 ^ k) + v.natAbs % 10 ^ k : ℕ) : ℚ) = v.natAbs := by rw [Nat.div_add_mod]
    rw [← hparts]
    push_cast
    field_simp
  rw [hsplit]
  split
  · next hneg =>
    rw [Nat.cast_natAbs, abs_of_neg hneg]
    push_cast
    ring
  · next hpos => rw [Nat.cast_natAbs, abs_of_nonneg (not_lt.mp hpos)]

/-- The text of a scale above zero denotes the value at it. -/
theorem fixedValue_writeDecimal128 (v : ℤ) {scale : ℤ} (h : 0 < scale) :
    fixedValue (writeDecimal128 v scale) = some ((v : ℚ) * 10 ^ (-scale)) := by
  have hfits : v.natAbs % 10 ^ scale.toNat < 10 ^ scale.toNat := Nat.mod_lt _ (by positivity)
  have hpow : (10 : ℚ) ^ (-scale) = (10 ^ scale.toNat)⁻¹ := by
    rw [zpow_neg, ← zpow_natCast, Int.toNat_of_nonneg h.le]
  rw [writeDecimal128_eq v h, fixedValue_point _ _ (by omega) hfits, hpow, ← div_eq_mul_inv, ← value_at_scale]
  simp only [decide_eq_true_eq]

/-- A scale of zero or less is written as none. -/
theorem fixedValue_of_nonpos (v : ℤ) {scale : ℤ} (h : scale ≤ 0) :
    fixedValue (writeDecimal128 v scale) = some ((v : ℚ) * 10 ^ (-scale)) ↔ scale = 0 ∨ v = 0 := by
  rw [writeDecimal128, if_pos h, fixedValue_decimal, Option.some_inj]
  rcases h.eq_or_lt with rfl | hneg
  · simp
  · have hone : (1 : ℚ) < 10 ^ (-scale) := one_lt_zpow₀ (by norm_num) (by omega)
    constructor
    · intro heq
      refine .inr ?_
      have hzero : (v : ℚ) * (10 ^ (-scale) - 1) = 0 := by rw [mul_sub, ← heq, mul_one, sub_self]
      exact_mod_cast (mul_eq_zero.mp hzero).resolve_right (sub_ne_zero.mpr hone.ne')
    · rintro (rfl | rfl)
      · exact absurd hneg (lt_irrefl 0)
      · simp

/-- **A decimal is rendered exactly unless its scale is negative and it is not zero.**  Of every 128-bit value and every
scale up to thirty-eight no operation overflows; the text denotes the value at its scale, with as many digits below the
point as the scale says, and a negative scale is left out of it. -/
theorem renders_decimal_iff (v : BitVec 128) {scale : ℤ} (h : scale ≤ 38) :
    RendersDecimal v scale ↔ 0 ≤ scale ∨ v = 0 := by
  have htext := writeDecimal128Checked_eq v h
  have hzero : v.toInt = 0 ↔ v = 0 := by rw [← BitVec.toInt_inj]; rfl
  rcases lt_or_ge 0 scale with hpos | hnonpos
  · refine iff_of_true ⟨_, htext, rfl, fixedValue_writeDecimal128 _ hpos, fun _ => ?_⟩ (.inl hpos.le)
    have hfits : v.toInt.natAbs % 10 ^ scale.toNat < 10 ^ scale.toNat := Nat.mod_lt _ (by positivity)
    refine ⟨_, writeDecimal128_eq _ hpos, ?_, fun c hc => isDigit_zeroPadded hc⟩
    rw [length_zeroPadded (length_numeral_le (by omega) hfits), Int.toNat_of_nonneg hpos.le]
  · have hvalue := fixedValue_of_nonpos v.toInt hnonpos
    rw [hzero] at hvalue
    have hscale : 0 ≤ scale ↔ scale = 0 := ⟨fun hge => le_antisymm hnonpos hge, fun heq => heq.ge⟩
    rw [hscale, ← hvalue]
    constructor
    · rintro ⟨text, hwritten, -, hdenotes, -⟩
      rw [htext] at hwritten
      rwa [← Option.some.inj hwritten] at hdenotes
    · exact fun hdenotes => ⟨_, htext, rfl, hdenotes, fun hpos => absurd hpos hnonpos.not_gt⟩

/-- The least value, at the greatest scale. -/
theorem renders_decimal_iff_least : RendersDecimal (BitVec.intMin 128) 38 ↔ (0 : ℤ) ≤ 38 ∨ BitVec.intMin 128 = 0 :=
  renders_decimal_iff (BitVec.intMin 128) (le_refl 38)

/-- **One at a scale of minus two is a hundred, and is written as one.** -/
theorem negative_scale_dropped : encodeBignumDecimal (-2) (.decimal128 (BitVec.ofNat 128 1).toInt) = some
    (quoted [49]) ∧
    fixedValue [49] = some 1 ∧ ¬RendersDecimal (BitVec.ofNat 128 1) (-2) := by
  refine ⟨rfl, rfl, ?_⟩
  rintro ⟨text, hwritten, -, hdenotes, -⟩
  obtain rfl : [49] = text := Option.some.inj hwritten
  have hone : fixedValue [49] = some 1 := rfl
  rw [hone, Option.some_inj] at hdenotes
  norm_num [BitVec.toInt] at hdenotes

end QueryEngine
