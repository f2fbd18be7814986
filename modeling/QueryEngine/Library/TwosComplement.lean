import Mathlib

/-!
# Library/TwosComplement — the number a word of bits denotes, read with or without a sign

A word of `bits` bits is known by its residue modulo `2 ^ bits`; a reading picks one representative
of the residue.  Two readings of one width agree on a value exactly when its top bit is clear, and a
reading is the identity on the values of its own range — the two facts a program that reinterprets
words relies on.
-/

namespace TwosComplement

/-- **The number the low `bits` bits of `x` denote** — balanced around zero when `signed`. -/
def read (signed : Bool) (bits : ℕ) (x : ℤ) : ℤ :=
  if signed then x.bmod (2 ^ bits) else x % 2 ^ bits

/-- The values a word of `bits` bits denotes under a reading. -/
def InRange (signed : Bool) (bits : ℕ) (x : ℤ) : Prop :=
  if signed then -2 ^ bits ≤ 2 * x ∧ 2 * x < 2 ^ bits else 0 ≤ x ∧ x < 2 ^ bits

instance (signed : Bool) (bits : ℕ) (x : ℤ) : Decidable (InRange signed bits x) := by
  unfold InRange; infer_instance

section Reading

variable {signed s t : Bool} {bits : ℕ} {x y : ℤ}

@[simp] theorem read_true : read true bits x = x.bmod (2 ^ bits) := rfl

@[simp] theorem read_false : read false bits x = x % 2 ^ bits := rfl

@[simp] theorem inRange_true : InRange true bits x ↔ -2 ^ bits ≤ 2 * x ∧ 2 * x < 2 ^ bits := Iff.rfl

@[simp] theorem inRange_false : InRange false bits x ↔ 0 ≤ x ∧ x < 2 ^ bits := Iff.rfl

/-- The modulus, as the integer it is. -/
theorem pow_pos_int (bits : ℕ) : (0 : ℤ) < 2 ^ bits := by positivity

/-- A reading keeps the residue. -/
theorem read_emod (signed : Bool) (bits : ℕ) (x : ℤ) :
    read signed bits x % 2 ^ bits = x % 2 ^ bits := by
  cases signed with
  | false => exact Int.emod_emod_of_dvd x (dvd_refl _)
  | true =>
    have h := Int.bmod_emod (x := x) (m := 2 ^ bits)
    push_cast at h
    exact h

/-- **A reading is decided by the residue.** -/
theorem read_congr (signed : Bool) (h : x % 2 ^ bits = y % 2 ^ bits) :
    read signed bits x = read signed bits y := by
  cases signed with
  | false => exact h
  | true =>
    have hx := Int.emod_bmod x (2 ^ bits)
    have hy := Int.emod_bmod y (2 ^ bits)
    push_cast at hx hy
    rw [read_true, read_true, ← hx, ← hy, h]

/-- A second reading of the same width sees through the first. -/
theorem read_read (s t : Bool) (bits : ℕ) (x : ℤ) : read s bits (read t bits x) = read s bits x :=
  read_congr s (read_emod t bits x)

/-- A reading of a word no wider than another sees through the wider one. -/
theorem read_read_of_le (s t : Bool) {narrow wide : ℕ} (h : narrow ≤ wide) (x : ℤ) :
    read s narrow (read t wide x) = read s narrow x := by
  refine read_congr s ?_
  have hd : (2 : ℤ) ^ narrow ∣ 2 ^ wide := pow_dvd_pow 2 h
  rw [← Int.emod_emod_of_dvd _ hd, read_emod, Int.emod_emod_of_dvd _ hd]

/-- **Bounds of one reading bound the unsigned reading**, unless they come out inverted: a word
between two words of one sign stays between them, and words of two signs swap places. -/
theorem unsigned_between {lo x hi : ℤ} (order : Bool)
    (hlo : read order bits lo ≤ read order bits x) (hhi : read order bits x ≤ read order bits hi)
    (hle : read false bits lo ≤ read false bits hi) :
    read false bits lo ≤ read false bits x ∧ read false bits x ≤ read false bits hi := by
  cases order with
  | false => exact ⟨hlo, hhi⟩
  | true =>
    simp only [read_true, read_false, Int.bmod_def, Nat.cast_pow, Nat.cast_ofNat] at hlo hhi hle ⊢
    have hl := Int.emod_nonneg lo (pow_pos_int bits).ne'
    have hx := Int.emod_nonneg x (pow_pos_int bits).ne'
    have hh := Int.emod_nonneg hi (pow_pos_int bits).ne'
    have hl' := Int.emod_lt_of_pos lo (pow_pos_int bits)
    have hx' := Int.emod_lt_of_pos x (pow_pos_int bits)
    have hh' := Int.emod_lt_of_pos hi (pow_pos_int bits)
    generalize lo % 2 ^ bits = l at *
    generalize x % 2 ^ bits = m at *
    generalize hi % 2 ^ bits = h at *
    generalize (2 : ℤ) ^ bits = p at *
    split at hlo <;> split at hlo <;> split at hhi <;> omega

/-- A reading lands in its range. -/
theorem read_inRange (signed : Bool) (bits : ℕ) (x : ℤ) :
    InRange signed bits (read signed bits x) := by
  have hpos := pow_pos_int bits
  cases signed with
  | false => exact ⟨Int.emod_nonneg x hpos.ne', Int.emod_lt_of_pos x hpos⟩
  | true =>
    have hm : 0 < 2 ^ bits := Nat.pow_pos (by decide)
    have hlo := Int.le_bmod (x := x) hm
    have hhi := Int.bmod_lt (x := x) hm
    push_cast at hlo hhi
    rw [inRange_true, read_true]
    omega

/-- **A reading is the identity on its range.** -/
theorem read_eq_self (h : InRange signed bits x) : read signed bits x = x := by
  cases signed with
  | false => exact Int.emod_eq_of_lt h.1 h.2
  | true =>
    obtain ⟨hlo, hhi⟩ := h
    refine Int.bmod_eq_of_le_mul_two ?_ ?_ <;> push_cast <;> omega

/-- A range lies inside the range of every wider word. -/
theorem InRange.mono {narrow wide : ℕ} (h : narrow ≤ wide) (hx : InRange signed narrow x) :
    InRange signed wide x := by
  have hp : (2 : ℤ) ^ narrow ≤ 2 ^ wide := pow_le_pow_right₀ (by norm_num) h
  cases signed with
  | false => exact ⟨hx.1, hx.2.trans_le hp⟩
  | true =>
    obtain ⟨hlo, hhi⟩ := hx
    exact ⟨by omega, by omega⟩

/-- Inside the range, a reading is known by its residue. -/
theorem read_eq_iff (hy : InRange signed bits y) :
    read signed bits x = y ↔ x % 2 ^ bits = y % 2 ^ bits := by
  constructor
  · rintro rfl
    exact (read_emod signed bits x).symm
  · intro h
    rw [read_congr signed h, read_eq_self hy]

/-- A value an unsigned word denotes, read with a sign: what lies above the sign bit wraps. -/
theorem read_true_of_unsigned (h : InRange false bits x) :
    read true bits x = if 2 * x < 2 ^ bits then x else x - 2 ^ bits := by
  obtain ⟨hlo, hhi⟩ := h
  split
  · next hs => exact read_eq_self ⟨by have := pow_pos_int bits; omega, hs⟩
  · next hs =>
    have hwrap : InRange true bits (x - 2 ^ bits) := ⟨by omega, by omega⟩
    exact (read_eq_iff hwrap).mpr (Int.sub_emod_right ..).symm

/-- A value a signed word denotes, read without its sign: what is negative wraps. -/
theorem read_false_of_signed (h : InRange true bits x) :
    read false bits x = if 0 ≤ x then x else x + 2 ^ bits := by
  obtain ⟨hlo, hhi⟩ := h
  have hpos := pow_pos_int bits
  split
  · next hs =>
    have hkeep : InRange false bits x := ⟨hs, by omega⟩
    exact read_eq_self hkeep
  · next hs =>
    have hwrap : InRange false bits (x + 2 ^ bits) := ⟨by omega, by omega⟩
    exact (read_eq_iff hwrap).mpr (Int.add_emod_right ..).symm

/-- **Where two readings agree** — a value of one reading's range is kept by the other exactly when
the readings are one, or the top bit is clear. -/
theorem read_eq_self_iff (h : InRange t bits x) :
    read s bits x = x ↔ s = t ∨ (0 ≤ x ∧ 2 * x < 2 ^ bits) := by
  have hpos := pow_pos_int bits
  cases s <;> cases t
  · simp [read_eq_self h, -read_false]
  · rw [read_false_of_signed h]
    obtain ⟨hlo, hhi⟩ := h
    split <;> simp <;> omega
  · rw [read_true_of_unsigned h]
    obtain ⟨hlo, hhi⟩ := h
    split <;> simp <;> omega
  · simp [read_eq_self h, -read_true]

/-- Readings of one width that agree on being negative agree. -/
theorem read_eq_read_of_nonneg_iff (h : 0 ≤ read s bits x ↔ 0 ≤ read t bits x) :
    read s bits x = read t bits x := by
  have hpos := pow_pos_int bits
  have hswap : ∀ {x : ℤ}, 0 ≤ read true bits x → read false bits x = read true bits x := by
    intro x hx
    obtain ⟨hlo, hhi⟩ : InRange true bits (read true bits x) := read_inRange true bits x
    have hkeep : InRange false bits (read true bits x) := ⟨hx, by omega⟩
    rw [← read_eq_self hkeep, read_read]
  cases s <;> cases t
  · rfl
  · exact hswap (h.mp (read_inRange false bits x).1)
  · exact (hswap (h.mpr (read_inRange false bits x).1)).symm
  · rfl

end Reading

/-! ## Words that hold a number in 64 bits -/

/-- A 64-bit word's unsigned value is the unsigned reading of what was put in it. -/
theorem toNat_ofInt_eq_read (x : ℤ) : ((BitVec.ofInt 64 x).toNat : ℤ) = read false 64 x := by
  rw [BitVec.toNat_ofInt, read_false]
  have h : (0 : ℤ) ≤ x % 2 ^ 64 := Int.emod_nonneg x (by norm_num)
  simpa using h

/-- Two words hold the same bits exactly when their numbers have the same residue. -/
theorem ofInt_eq_ofInt_iff {w : ℕ} (x y : ℤ) :
    BitVec.ofInt w x = BitVec.ofInt w y ↔ x % 2 ^ w = y % 2 ^ w := by
  constructor
  · intro h
    have h' := congrArg BitVec.toNat h
    rw [BitVec.toNat_ofInt, BitVec.toNat_ofInt] at h'
    have hx := Int.emod_nonneg x (pow_pos_int w).ne'
    have hy := Int.emod_nonneg y (pow_pos_int w).ne'
    push_cast at h'
    omega
  · intro h
    apply BitVec.eq_of_toNat_eq
    rw [BitVec.toNat_ofInt, BitVec.toNat_ofInt]
    push_cast
    rw [h]

end TwosComplement
