import Mathlib

/-!
# Library/Segments — checked arithmetic, and places in aligned segments

Arithmetic at a width answers nothing where it would overflow.  A table cut in segments of one power of two
is read at a place scaled from a hash (`mulHigh_lt`), moved by whole segments and then flipped in its low
bits, which never leaves the segment (`xor_div_segment`).
-/

namespace Segments

/-! ## Checked arithmetic -/

/-- A number, unless a width does not hold it. -/
def checked (bits n : ℕ) : Option ℕ := if n < 2 ^ bits then some n else none

/-- A sum, where it is in bounds. -/
def addChecked (bits a b : ℕ) : Option ℕ := checked bits (a + b)

/-- A product, where it is in bounds. -/
def mulChecked (bits a b : ℕ) : Option ℕ := checked bits (a * b)

/-- A difference, unless it is below zero. -/
def subChecked (a b : ℕ) : Option ℕ := if b ≤ a then some (a - b) else none

/-- A remainder, unless the divisor is zero. -/
def remChecked (a b : ℕ) : Option ℕ := if b = 0 then none else some (a % b)

variable {bits a b n : ℕ}

theorem addChecked_of_lt (h : a + b < 2 ^ bits) : addChecked bits a b = some (a + b) := if_pos h

theorem mulChecked_of_lt (h : a * b < 2 ^ bits) : mulChecked bits a b = some (a * b) := if_pos h

theorem subChecked_of_le (h : b ≤ a) : subChecked a b = some (a - b) := if_pos h

theorem subChecked_eq_some {c : ℕ} : subChecked a b = some c ↔ b ≤ a ∧ a - b = c := by
  unfold subChecked
  split
  · next h => simp [h]
  · next h => simp [h]

theorem remChecked_of_pos (h : 0 < b) : remChecked a b = some (a % b) := if_neg (Nat.ne_of_gt h)

/-! ## Segments -/

/-- **The high half of a hash times a bound is below the bound.** -/
theorem mulHigh_lt {hash : ℕ} (hhash : hash < 2 ^ bits) (hn : 0 < n) : hash * n / 2 ^ bits < n := by
  rw [Nat.div_lt_iff_lt_mul (by positivity), Nat.mul_comm n]
  exact Nat.mul_lt_mul_of_pos_right hhash hn

/-- **Flipping bits below a segment's length stays in the segment.** -/
theorem xor_div_segment {k place flip : ℕ} (h : flip < 2 ^ k) : (place ^^^ flip) / 2 ^ k = place / 2 ^ k := by
  rw [Nat.xor_div_two_pow, Nat.div_eq_of_lt h, Nat.xor_zero]

/-- A mask of one less than a power of two keeps what is below it. -/
theorem and_mask_lt {k : ℕ} (x : ℕ) : x &&& (2 ^ k - 1) < 2 ^ k := by
  rw [Nat.and_two_pow_sub_one_eq_mod]
  exact Nat.mod_lt _ (by positivity)

/-- A place in a segment below a count of segments is below the count's end. -/
theorem lt_of_div_lt {length count place : ℕ} (hlength : 0 < length) (h : place / length < count) :
    place < count * length := (Nat.div_lt_iff_lt_mul hlength).mp h

end Segments
