import QueryEngine.Library.Numerals

/-!
# Library/FixedPoint — decimal text with a point, and the rational it denotes

A text denotes a whole part and, after a point, so many digits of a fraction.  Zeros before a numeral leave its value,
  so
a fraction padded to a count of digits is that many powers of ten below its numeral.
-/

namespace Numerals

/-- A decimal digit. -/
def IsDigit (c : UInt8) : Prop := ∃ d < 10, c = digitChar d

/-- The rational a text without a sign denotes: digits, and perhaps a point and further digits. -/
def fixedMagnitude (text : List UInt8) : Option ℚ :=
  let whole := text.takeWhile (· != 46)
  match text.dropWhile (· != 46) with
  | [] => (numeralValue 10 whole).map fun n : ℕ => (n : ℚ)
  | _ :: fraction => (numeralValue 10 whole).bind fun n =>
      (numeralValue 10 fraction).map fun f : ℕ => (n : ℚ) + (f : ℚ) / 10 ^ fraction.length

/-- The rational a text denotes. -/
def fixedValue : List UInt8 → Option ℚ
  | [] => none
  | c :: text => if c = 45 then (fixedMagnitude text).map fun q => -q else fixedMagnitude (c :: text)

/-- A sign, where there is one. -/
def signText (negative : Bool) : List UInt8 := if negative then [45] else []

/-- Digits before which zeros make up a count. -/
def zeroPadded (count : ℕ) (text : List UInt8) : List UInt8 := List.replicate (count - text.length) 48 ++ text

/-! ## Digits -/

theorem IsDigit.ne {c : UInt8} (h : IsDigit c) : c ≠ 45 ∧ c ≠ 46 := by
  obtain ⟨d, hd, rfl⟩ := h
  interval_cases d <;> decide

theorem isDigit_numeral {n : ℕ} {c : UInt8} (hc : c ∈ numeral 10 n) : IsDigit c := mem_numeral (by decide) hc

theorem isDigit_zeroPadded {count n : ℕ} {c : UInt8} (hc : c ∈ zeroPadded count (numeral 10 n)) : IsDigit c := by
  rcases List.mem_append.mp hc with hc | hc
  · exact ⟨0, by decide, List.eq_of_mem_replicate hc⟩
  · exact isDigit_numeral hc

/-- A number below a power of ten has so many digits at most. -/
theorem length_numeral_le {n k : ℕ} (hk : 0 < k) (h : n < 10 ^ k) : (numeral 10 n).length ≤ k := by
  unfold numeral
  split
  · exact hk
  · rw [List.length_map, List.length_reverse, digits_eq (by decide)]
    exact (Nat.digits_length_le_iff (by decide) n).mpr h

theorem length_zeroPadded {count : ℕ} {text : List UInt8} (h : text.length ≤ count) : (zeroPadded count text).length =
    count := by
  rw [zeroPadded, List.length_append, List.length_replicate, Nat.sub_add_cancel h]

/-- Zeros before a numeral leave its value. -/
theorem numeralValue_zeros {base n : ℕ} {text : List UInt8} (h : numeralValue base text = some n) (k : ℕ) :
    numeralValue base (List.replicate k 48 ++ text) = some n := by
  unfold numeralValue at h ⊢
  split at h
  · exact absurd h nofun
  · next hne =>
    obtain ⟨ds, hds, rfl⟩ := Option.map_eq_some_iff.mp h
    have hzeros : (List.replicate k (48 : UInt8)).mapM charDigit = some (List.replicate k 0) := by
      have hmap := mapM_charDigit (List.replicate k 0) fun d hd => by rw [List.eq_of_mem_replicate hd]; decide
      rwa [List.map_replicate] at hmap
    rw [if_neg (by simp [hne]), List.mapM_append, hzeros, hds]
    simp [Nat.ofDigits_append_replicate_zero]

/-! ## Reading a text -/

/-- A text of digits has no point. -/
theorem span_digits {digits : List UInt8} (h : ∀ c ∈ digits, IsDigit c) (rest : List UInt8) :
    (digits ++ 46 :: rest).takeWhile (· != 46) = digits ∧ (digits ++ 46 :: rest).dropWhile (· != 46) = 46 :: rest := by
  have hne : ∀ c ∈ digits, (c != 46) = true := fun c hc => bne_iff_ne.mpr (h c hc).ne.2
  rw [List.takeWhile_append_of_pos hne, List.dropWhile_append_of_pos hne]
  simp

/-- A sign is read off. -/
theorem fixedValue_sign (negative : Bool) {text : List UInt8} (h : ∀ c ∈ text.head?, IsDigit c) (hne : text ≠ []) :
    fixedValue (signText negative ++ text) = (fixedMagnitude text).map fun q => if negative then -q else q := by
  obtain ⟨c, rest, rfl⟩ := List.exists_cons_of_ne_nil hne
  cases negative with
  | true => simp [signText, fixedValue]
  | false =>
    have hc := (h c rfl).ne.1
    simp [signText, fixedValue, hc]

/-- A decimal numeral is its sign and its digits. -/
theorem decimal_eq (v : ℤ) : decimal v = signText (decide (v < 0)) ++ numeral 10 v.natAbs := by
  unfold decimal signText
  by_cases h : v < 0 <;> simp [h]

/-- The first character of a text that starts with a numeral. -/
theorem isDigit_head_numeral (n : ℕ) (rest : List UInt8) : ∀ c ∈ (numeral 10 n ++ rest).head?, IsDigit c := by
  intro c hc
  rw [List.head?_append_of_ne_nil _ (numeral_ne_nil (by decide) n)] at hc
  exact isDigit_numeral (List.mem_of_mem_head? hc)

/-- **A text without a point denotes its integer.** -/
theorem fixedValue_decimal (v : ℤ) : fixedValue (decimal v) = some (v : ℚ) := by
  have hne : ∀ c ∈ numeral 10 v.natAbs, (c != 46) = true := fun c hc => bne_iff_ne.mpr (isDigit_numeral hc).ne.2
  have hhead := isDigit_head_numeral v.natAbs []
  rw [List.append_nil] at hhead
  have hmagnitude : fixedMagnitude (numeral 10 v.natAbs) = some (v.natAbs : ℚ) := by
    rw [fixedMagnitude, List.takeWhile_eq_self_iff.mpr hne, List.dropWhile_eq_nil_iff.mpr hne]
    simp only [numeralValue_numeral (show 2 ≤ 10 by decide) (by decide), Option.map_some]
  rw [decimal_eq, fixedValue_sign _ hhead (numeral_ne_nil (by decide) _), hmagnitude, Option.map_some, Option.some_inj]
  by_cases h : v < 0
  · rw [decide_eq_true h, if_pos rfl, Nat.cast_natAbs, abs_of_neg h]
    push_cast
    ring
  · rw [decide_eq_false h, if_neg Bool.false_ne_true, Nat.cast_natAbs, abs_of_nonneg (not_lt.mp h)]

/-- **A text with a point denotes its whole part and so many digits of a fraction.** -/
theorem fixedValue_point (negative : Bool) (whole : ℕ) {fraction count : ℕ} (hcount : 0 < count)
    (hfits : fraction < 10 ^ count) :
    fixedValue (signText negative ++ (numeral 10 whole ++ 46 :: zeroPadded count (numeral 10 fraction))) =
      some (if negative then -((whole : ℚ) + fraction / 10 ^ count) else (whole : ℚ) + fraction / 10 ^ count) := by
  have hmagnitude : fixedMagnitude (numeral 10 whole ++ 46 :: zeroPadded count (numeral 10 fraction)) =
      some ((whole : ℚ) + fraction / 10 ^ count) := by
    obtain ⟨htake, hdrop⟩ := span_digits (fun c hc => isDigit_numeral (n := whole) hc)
      (zeroPadded count (numeral 10 fraction))
    have hvalue : numeralValue 10 (zeroPadded count (numeral 10 fraction)) = some fraction :=
      numeralValue_zeros (numeralValue_numeral (by decide) (by decide) fraction) _
    rw [fixedMagnitude, htake, hdrop]
    simp only [numeralValue_numeral (show 2 ≤ 10 by decide) (by decide), hvalue, Option.bind_some, Option.map_some,
      length_zeroPadded (length_numeral_le hcount hfits)]
  rw [fixedValue_sign _ (isDigit_head_numeral _ _) (by simp), hmagnitude, Option.map_some]

end Numerals
