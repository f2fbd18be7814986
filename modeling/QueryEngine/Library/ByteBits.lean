import Mathlib

/-!
# Library/ByteBits — bits of a byte string, and strings that cover each other's

A byte string holds eight bits a byte, the lowest first.  One string *covers* another of its length when no
bit of the other is missing from it, which is asked a byte at a time (`missing_eq_zero_iff`).
-/

namespace ByteBits

/-- The bit of a string at a place. -/
def testBit (bytes : List UInt8) (i : ℕ) : Bool := (bytes.getD (i / 8) 0).toNat.testBit (i % 8)

/-- The string with the bit of a place set. -/
def setBit (bytes : List UInt8) (i : ℕ) : List UInt8 :=
  bytes.modify (i / 8) fun b => b ||| (1 <<< UInt8.ofNat (i % 8))

/-- The bits of one string that another lacks, gathered in a byte. -/
def missing (mask bytes : List UInt8) : UInt8 :=
  (mask.zip bytes).foldl (fun missing b => missing ||| (b.1 &&& ~~~b.2)) 0

theorem testBit_shift_one {k : ℕ} (hk : k < 8) (j : ℕ) :
    (1 <<< UInt8.ofNat k : UInt8).toNat.testBit j = decide (j = k) := by
  have hone : (1 <<< UInt8.ofNat k : UInt8).toNat = 2 ^ k := by
    revert k
    decide
  rw [hone, Nat.testBit_two_pow]
  exact decide_eq_decide.mpr eq_comm

theorem testBit_or (a b : UInt8) (j : ℕ) :
    (a ||| b).toNat.testBit j = (a.toNat.testBit j || b.toNat.testBit j) := by
  rw [UInt8.toNat_or, Nat.testBit_or]

/-- A byte's bits stop at the eighth. -/
theorem testBit_of_le (b : UInt8) {j : ℕ} (hj : 8 ≤ j) : b.toNat.testBit j = false :=
  Nat.testBit_lt_two_pow (lt_of_lt_of_le b.toNat_lt (Nat.pow_le_pow_right (by decide) hj))

theorem testBit_diff (a b : UInt8) {j : ℕ} (hj : j < 8) :
    (a &&& ~~~b).toNat.testBit j = (a.toNat.testBit j && !b.toNat.testBit j) := by
  have hnot : (~~~b).toBitVec.getLsbD j = !b.toBitVec.getLsbD j := by
    rw [UInt8.toBitVec_not, BitVec.getLsbD_not, decide_eq_true hj, Bool.true_and]
  rw [UInt8.toNat_and, Nat.testBit_and]
  exact congrArg (a.toNat.testBit j && ·) hnot

@[simp] theorem length_setBit (bytes : List UInt8) (i : ℕ) : (setBit bytes i).length = bytes.length :=
  List.length_modify ..

/-- **Setting a bit sets that one.** -/
theorem testBit_setBit {bytes : List UInt8} {i : ℕ} (hi : i < 8 * bytes.length) (j : ℕ) :
    testBit (setBit bytes i) j = (testBit bytes j || decide (j = i)) := by
  have hbyte : i / 8 < bytes.length := by omega
  unfold testBit setBit
  simp only [List.getD_eq_getElem?_getD, List.getElem?_modify]
  by_cases hj : i / 8 = j / 8
  · simp only [if_pos hj]
    rw [← hj, List.getElem?_eq_getElem hbyte]
    change (bytes[i / 8] ||| _).toNat.testBit (j % 8) = (bytes[i / 8].toNat.testBit (j % 8) || _)
    rw [testBit_or, testBit_shift_one (Nat.mod_lt _ (by decide))]
    congr 1
    exact decide_eq_decide.mpr (by omega)
  · have hne : j ≠ i := fun h => hj (by rw [h])
    rw [decide_eq_false hne, Bool.or_false]
    simp only [if_neg hj]
    cases bytes[j / 8]? <;> rfl

/-- Bits set one after the other. -/
theorem testBit_foldl_setBit (j : ℕ) : ∀ (places : List ℕ) (bytes : List UInt8),
    (∀ i ∈ places, i < 8 * bytes.length) →
    (testBit (places.foldl setBit bytes) j = true ↔ testBit bytes j = true ∨ j ∈ places)
  | [], bytes, _ => by simp
  | i :: places, bytes, h => by
    have hi : i < 8 * bytes.length := h i List.mem_cons_self
    rw [List.foldl_cons, testBit_foldl_setBit j places (setBit bytes i) fun k hk => by
      rw [length_setBit]
      exact h k (List.mem_cons_of_mem _ hk)]
    rw [testBit_setBit hi, Bool.or_eq_true, decide_eq_true_eq, List.mem_cons, or_assoc]

@[simp] theorem length_foldl_setBit : ∀ (places : List ℕ) (bytes : List UInt8),
    (places.foldl setBit bytes).length = bytes.length
  | [], _ => rfl
  | i :: places, bytes => by rw [List.foldl_cons, length_foldl_setBit places, length_setBit]

@[simp] theorem testBit_zeros (width j : ℕ) : testBit (List.replicate width 0) j = false := by
  have hbyte : (List.replicate width (0 : UInt8)).getD (j / 8) 0 = 0 := by
    rw [List.getD_eq_getElem?_getD, List.getElem?_replicate]
    split <;> rfl
  rw [testBit, hbyte]
  exact Nat.zero_testBit _

/-! ## Covering -/

/-- Nothing is missing of one byte when the other has its bits. -/
theorem diff_eq_zero_iff (a b : UInt8) :
    a &&& ~~~b = 0 ↔ ∀ j < 8, a.toNat.testBit j = true → b.toNat.testBit j = true := by
  constructor
  · intro h j hj ha
    have hbit := testBit_diff a b hj
    rw [h, ha, Bool.true_and] at hbit
    simpa using hbit.symm
  · intro h
    refine UInt8.toNat_inj.mp (Nat.eq_of_testBit_eq fun j => ?_)
    rw [UInt8.toNat_zero, Nat.zero_testBit]
    rcases Nat.lt_or_ge j 8 with hj | hj
    · rw [testBit_diff a b hj, Bool.and_eq_false_imp]
      exact fun ha => by rw [h j hj ha, Bool.not_true]
    · exact testBit_of_le _ hj

theorem foldl_missing (f : UInt8 × UInt8 → UInt8) : ∀ (pairs : List (UInt8 × UInt8)) (start : UInt8),
    pairs.foldl (fun missing b => missing ||| f b) start = 0 ↔ start = 0 ∧ ∀ b ∈ pairs, f b = 0
  | [], start => by simp
  | b :: pairs, start => by
    rw [List.foldl_cons, foldl_missing f pairs, UInt8.or_eq_zero_iff, List.forall_mem_cons, and_assoc]

/-- **One string covers another exactly when no bit is missing from it.** -/
theorem missing_eq_zero_iff : ∀ {mask bytes : List UInt8}, mask.length = bytes.length →
    (missing mask bytes = 0 ↔ ∀ j, testBit mask j = true → testBit bytes j = true) := by
  intro mask bytes hlen
  rw [missing, foldl_missing fun b => b.1 &&& ~~~b.2]
  simp only [true_and, diff_eq_zero_iff]
  constructor
  · intro h j hj
    unfold testBit at hj ⊢
    by_cases hbyte : j / 8 < mask.length
    · have hbyte' : j / 8 < bytes.length := hlen ▸ hbyte
      rw [List.getD_eq_getElem _ _ hbyte] at hj
      rw [List.getD_eq_getElem _ _ hbyte']
      refine h (mask[j / 8], bytes[j / 8]) ?_ (j % 8) (Nat.mod_lt _ (by decide)) hj
      exact List.mem_of_getElem? (by
        rw [List.getElem?_zip_eq_some]
        exact ⟨List.getElem?_eq_getElem hbyte, List.getElem?_eq_getElem hbyte'⟩)
    · rw [List.getD_eq_default _ _ (not_lt.mp hbyte)] at hj
      exact absurd hj (by simp)
  · intro h b hb j hj hmask
    obtain ⟨i, hi⟩ := List.mem_iff_getElem?.mp hb
    obtain ⟨hm, hby⟩ := List.getElem?_zip_eq_some.mp hi
    have hplace := h (8 * i + j)
    unfold testBit at hplace
    have hdiv : (8 * i + j) / 8 = i := by omega
    have hmod : (8 * i + j) % 8 = j := by omega
    rw [hdiv, hmod, List.getD_eq_getElem?_getD, List.getD_eq_getElem?_getD, hm, hby] at hplace
    exact hplace hmask

end ByteBits
