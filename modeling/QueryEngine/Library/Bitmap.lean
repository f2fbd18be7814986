import Mathlib

/-!
# Library/Bitmap — a set of small numbers as words of bits

Bit `i` lives in word `i / 64` at place `i % 64`.  Setting a bit changes no other
(`testBit_setBit`), so a bitmap built from a list of places holds those places and nothing else
(`testBit_ofPlaces`).
-/

namespace Bitmap

/-- Words of bits, with none set: enough of them for a count of bits. -/
def zeros (count : ℕ) : List (BitVec 64) := List.replicate ((count + 63) / 64) 0

/-- Whether the bit at a place is set. -/
def testBit (words : List (BitVec 64)) (i : ℕ) : Bool :=
  match words[i / 64]? with
  | some word => (word >>> (i % 64)) &&& 1#64 == 1#64
  | none => false

/-- The words once the bit at a place is set. -/
def setBit (words : List (BitVec 64)) (i : ℕ) : List (BitVec 64) :=
  words.modify (i / 64) fun word => word ||| 1#64 <<< (i % 64)

/-- The bit a shift brings to the bottom of a word. -/
theorem shift_and_one (word : BitVec 64) (k : ℕ) :
    ((word >>> k) &&& 1#64 == 1#64) = word.getLsbD k := by
  rw [Bool.eq_iff_iff, beq_iff_eq]
  constructor
  · intro h
    have h0 := congrArg (fun w : BitVec 64 => w.getLsbD 0) h
    simpa using h0
  · intro h
    refine BitVec.eq_of_getLsbD_eq fun i hi => ?_
    rcases Nat.eq_zero_or_pos i with rfl | hpos
    · simpa using h
    · simp [BitVec.getLsbD_one, hpos.ne']

theorem testBit_zeros (count i : ℕ) : testBit (zeros count) i = false := by
  unfold testBit zeros
  split
  · next word h =>
    obtain rfl := (List.mem_replicate.mp (List.mem_of_getElem? h)).2
    rw [shift_and_one]
    simp
  · rfl

@[simp] theorem length_setBit (words : List (BitVec 64)) (i : ℕ) :
    (setBit words i).length = words.length := by simp [setBit]

/-- **Setting a bit sets that one and no other.** -/
theorem testBit_setBit {words : List (BitVec 64)} {i : ℕ} (hi : i / 64 < words.length) (j : ℕ) :
    testBit (setBit words i) j = (decide (i = j) || testBit words j) := by
  unfold testBit setBit
  rw [List.getElem?_modify]
  by_cases hword : i / 64 = j / 64
  · rw [List.getElem?_eq_getElem (by omega)]
    simp only [Option.map_eq_map, Option.map_some, if_pos hword, shift_and_one, BitVec.getLsbD_or]
    have hone : (1#64 <<< (i % 64)).getLsbD (j % 64) = decide (i = j) := by
      rw [BitVec.getLsbD_shiftLeft, BitVec.getLsbD_one]
      have hj : j % 64 < 64 := Nat.mod_lt _ (by decide)
      rw [Bool.eq_iff_iff]
      simp only [Bool.and_eq_true, decide_eq_true_eq, Bool.not_eq_true', decide_eq_false_iff_not]
      omega
    rw [hone, Bool.or_comm]
  · have hne : i ≠ j := fun e => hword (by rw [e])
    simp [hword, hne]

/-- The bitmap of some places, among a count of bits. -/
def ofPlaces (count : ℕ) (places : List ℕ) : List (BitVec 64) :=
  places.foldl setBit (zeros count)

theorem testBit_foldl_setBit (i : ℕ) : ∀ (places : List ℕ) (words : List (BitVec 64)),
    (∀ p ∈ places, p / 64 < words.length) →
      testBit (places.foldl setBit words) i = (decide (i ∈ places) || testBit words i)
  | [], words, _ => by simp
  | p :: places, words, h => by
    have hp : p / 64 < words.length := h p List.mem_cons_self
    have hrest : ∀ q ∈ places, q / 64 < (setBit words p).length := fun q hq => by
      rw [length_setBit]
      exact h q (List.mem_cons_of_mem _ hq)
    rw [List.foldl_cons, testBit_foldl_setBit i places _ hrest, testBit_setBit hp]
    by_cases hip : p = i
    · simp [hip]
    · simp [hip, Ne.symm hip]

/-- **A bitmap holds the places it was built from**, and nothing else. -/
theorem testBit_ofPlaces {count : ℕ} {places : List ℕ} (h : ∀ p ∈ places, p < count) (i : ℕ) :
    testBit (ofPlaces count places) i = true ↔ i ∈ places := by
  have hwords : ∀ p ∈ places, p / 64 < (zeros count).length := fun p hp => by
    have hlt := h p hp
    rw [zeros, List.length_replicate]
    omega
  rw [ofPlaces, testBit_foldl_setBit i places _ hwords, testBit_zeros]
  simp

/-! ## Bitmaps end to end -/

/-- A bitmap ends before the next one starts. -/
theorem sum_take_add_le {widths : List ℕ} {i j : ℕ} (hij : i < j) (hi : i < widths.length) :
    (widths.take i).sum + widths[i] ≤ (widths.take j).sum := by
  have hbegins : widths.take (i + 1) <+: widths.take j := List.take_prefix_take_left hij
  obtain ⟨rest, hrest⟩ := hbegins
  rw [← List.sum_take_succ _ _ hi, ← hrest, List.sum_append]
  exact Nat.le_add_right _ _

/-- **Bitmaps laid end to end share no bit.** -/
theorem place_injective {widths : List ℕ} {i j x y : ℕ} (hi : i < widths.length)
    (hj : j < widths.length) (hx : x < widths[i]) (hy : y < widths[j])
    (h : (widths.take i).sum + x = (widths.take j).sum + y) : i = j ∧ x = y := by
  rcases lt_trichotomy i j with hij | rfl | hji
  · have hle := sum_take_add_le hij hi
    omega
  · exact ⟨rfl, by omega⟩
  · have hle := sum_take_add_le hji hj
    omega

end Bitmap
