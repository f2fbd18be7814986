import QueryEngine.Library.Numerals

/-!
# Library/ByteLanes — a word searched for a byte, all its lanes at once

A word holds a byte in each of its lanes.  Subtracting a bound from every lane borrows from the lowest lane below it
first, so the lanes' top bits tell whether any byte is below the bound, and an exclusive or with a byte in every lane
turns the search for that byte into the search for a zero.
-/

namespace ByteLanes

open Numerals

/-- A number in each of some lanes. -/
def lanes (n : ℕ) : ℕ → ℕ
  | 0 => 0
  | k + 1 => n + 256 * lanes n k

theorem lanes_lt {n : ℕ} (h : n < 256) : ∀ k, lanes n k < 256 ^ k
  | 0 => by simp [lanes]
  | k + 1 => by
    have ih := lanes_lt h k
    rw [lanes, pow_succ]
    omega

theorem testBit_top {x : ℕ} (i : ℕ) : (x.testBit (8 * i + 7) = true) ↔ x / 2 ^ (8 * i + 7) % 2 = 1 := by
  rw [Nat.testBit_eq_decide_div_mod_eq, decide_eq_true_eq]

/-- The top bit of a lane is that of the next lane, shifted. -/
theorem testBit_lane_succ (x z i : ℕ) (hx : x < 256) :
    (x + 256 * z).testBit (8 * (i + 1) + 7) = z.testBit (8 * i + 7) := by
  have hpow : 2 ^ (8 * (i + 1) + 7) = 256 * 2 ^ (8 * i + 7) := by ring
  rw [Nat.testBit_eq_decide_div_mod_eq, Nat.testBit_eq_decide_div_mod_eq, hpow, ← Nat.div_div_eq_div_mul,
    Nat.add_mul_div_left _ _ (by decide), Nat.div_eq_of_lt hx, Nat.zero_add]

/-- A lane that does not borrow leaves the other lanes to themselves. -/
theorem sub_lanes_cons {n b P N W : ℕ} (hnb : n ≤ b) (hb : b < 256) (hN : N < P) :
    (256 * P - (n + 256 * N) + (b + 256 * W)) % (256 * P) = (b - n) + 256 * ((P - N + W) % P) := by
  have hsum : 256 * P - (n + 256 * N) + (b + 256 * W) = (b - n) + 256 * (P - N + W) := by omega
  rw [hsum, Nat.mod_mul, Nat.add_mul_mod_self_left, Nat.mod_eq_of_lt (by omega), Nat.add_mul_div_left _ _ (by decide),
    Nat.div_eq_of_lt (by omega), Nat.zero_add]

/-- **No top bit says that no byte is below the bound.** -/
theorem le_of_testBit {n : ℕ} (hn : n ≤ 128) : ∀ bs : List UInt8,
    (∀ i < bs.length, ((256 ^ bs.length - lanes n bs.length + ofLeBytes bs) % 256 ^ bs.length).testBit (8 * i + 7) =
      true →
      (ofLeBytes bs).testBit (8 * i + 7) = true) → ∀ b ∈ bs, n ≤ b.toNat
  | [], _ => nofun
  | b :: bs, h => by
    have hb := b.toNat_lt
    have hlanes := lanes_lt (show n < 256 by omega) bs.length
    simp only [List.length_cons, pow_succ, lanes, ofLeBytes] at h
    rw [Nat.mul_comm _ 256] at h
    by_cases hbn : n ≤ b.toNat
    · rw [sub_lanes_cons hbn hb hlanes] at h
      intro c hc
      rcases List.mem_cons.mp hc with rfl | hc
      · exact hbn
      · refine le_of_testBit hn bs (fun i hi => ?_) c hc
        have hlane := h (i + 1) (by omega)
        rwa [testBit_lane_succ _ _ _ (by omega), testBit_lane_succ _ _ _ hb] at hlane
    · -- the lane borrows, and its top bit is set
      have htop := h 0 (by omega)
      generalize hP : 256 ^ bs.length = P at htop hlanes
      generalize hN : lanes n bs.length = N at htop hlanes
      generalize hW : ofLeBytes bs = W at htop
      rw [testBit_top, testBit_top] at htop
      have hmod : (256 * P - (n + 256 * N) + (b.toNat + 256 * W)) % (256 * P) % 256 = 256 + b.toNat - n := by
        rw [Nat.mod_mul_right_mod]
        omega
      omega

/-- **No byte below the bound sets no top bit**: no lane borrows, so none disturbs the next. -/
theorem testBit_of_le {n : ℕ} (hn : n ≤ 128) : ∀ bs : List UInt8, (∀ b ∈ bs, n ≤ b.toNat) →
    ∀ i < bs.length, ((256 ^ bs.length - lanes n bs.length + ofLeBytes bs) % 256 ^ bs.length).testBit (8 * i + 7) =
      true →
      (ofLeBytes bs).testBit (8 * i + 7) = true
  | [], _ => nofun
  | b :: bs, h => by
    have hb := b.toNat_lt
    have hbn := h b (List.mem_cons_self ..)
    have hlanes := lanes_lt (show n < 256 by omega) bs.length
    have ih := testBit_of_le hn bs fun c hc => h c (List.mem_cons_of_mem _ hc)
    intro i hi
    simp only [List.length_cons, pow_succ, lanes, ofLeBytes]
    rw [Nat.mul_comm _ 256, sub_lanes_cons hbn hb hlanes]
    cases i with
    | zero =>
      rw [testBit_top, testBit_top]
      omega
    | succ i =>
      rw [testBit_lane_succ _ _ _ (by omega), testBit_lane_succ _ _ _ hb]
      exact ih i (by simpa using hi)

/-- An exclusive or with a byte in every lane is one in each lane. -/
theorem xor_lanes (n : UInt8) : ∀ bs : List UInt8,
    ofLeBytes bs ^^^ lanes n.toNat bs.length = ofLeBytes (bs.map (· ^^^ n))
  | [] => by simp [ofLeBytes, lanes]
  | b :: bs => by
    have ih := xor_lanes n bs
    have hb := b.toNat_lt
    have hn := n.toNat_lt
    simp only [List.map_cons, List.length_cons, lanes, ofLeBytes, ← ih, UInt8.toNat_xor]
    have hxor : b.toNat ^^^ n.toNat < 2 ^ 8 := Nat.xor_lt_two_pow hb hn
    refine Nat.eq_of_testBit_eq fun j => ?_
    have hsplit : ∀ x z, x < 2 ^ 8 → (x + 256 * z).testBit j = if j < 8 then x.testBit j else z.testBit (j - 8) := by
      intro x z hx
      rw [Nat.add_comm, show 256 = 2 ^ 8 from rfl, Nat.testBit_two_pow_mul_add z hx]
    rw [Nat.testBit_xor, hsplit _ _ hb, hsplit _ _ hn, hsplit _ _ hxor]
    split
    · rw [Nat.testBit_xor]
    · rw [Nat.testBit_xor]

end ByteLanes
