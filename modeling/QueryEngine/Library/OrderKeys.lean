import QueryEngine.Library.Dedup

/-!
# Library/OrderKeys — keys written so that their order is that of what they stand for

A number with its sign bit flipped orders as the number does (`cmp_flip`); digits of fixed widths put in one
word order as the digits do one after the other (`cmp_mul_add`), and so do strings of fixed lengths
(`order_append`).
-/

open Dedup

namespace OrderKeys

/-! ## One after the other -/

theorem then_assoc (a b c : Ordering) : (a.then b).then c = a.then (b.then c) := by cases a <;> rfl

theorem firstApart_append (os os' : List Ordering) :
    firstApart (os ++ os') = (firstApart os).then (firstApart os') := by
  induction os with
  | nil => rfl
  | cons o os ih => rw [List.cons_append, firstApart_cons, firstApart_cons, ih, then_assoc]

/-- **A digit more breaks the ties of the digits before it.** -/
theorem cmp_mul_add {m x y d e : ℕ} (hd : d < m) (he : e < m) :
    cmp (x * m + d) (y * m + e) = (cmp x y).then (cmp d e) := by
  rcases lt_trichotomy x y with h | rfl | h
  · have hle : (x + 1) * m ≤ y * m := Nat.mul_le_mul_right m h
    rw [(cmp_eq_lt_iff x y).mpr h, (cmp_eq_lt_iff _ _).mpr (by rw [Nat.succ_mul] at hle; omega)]
    rfl
  · rw [cmp_self_eq_eq, Ordering.eq_then]
    simp only [cmp, cmpUsing, Nat.add_lt_add_iff_left]
  · have hle : (y + 1) * m ≤ x * m := Nat.mul_le_mul_right m h
    rw [(cmp_eq_gt_iff x y).mpr h, (cmp_eq_gt_iff _ _).mpr (by rw [Nat.succ_mul] at hle; omega)]
    rfl

section Lists

variable {α : Type} [LinearOrder α]

theorem order_self (a : α) : order a a = .eq := order_eq_eq_iff.mpr rfl

theorem order_cons (a b : α) (as bs : List α) :
    order (a :: as) (b :: bs) = (order a b).then (order as bs) := by
  rw [order_eq_cmp, cmp_cons, ← order_eq_cmp, ← order_eq_cmp]

/-- **Strings of one length break their ties by what follows.** -/
theorem order_append : ∀ {as bs : List α}, as.length = bs.length → ∀ cs ds : List α,
    order (as ++ cs) (bs ++ ds) = (order as bs).then (order cs ds)
  | [], [], _, cs, ds => by rw [order_self]; rfl
  | a :: as, b :: bs, h, cs, ds => by
    rw [List.cons_append, List.cons_append, order_cons, order_cons, order_append (Nat.succ.inj h), then_assoc]

end Lists

/-! ## Signs -/

/-- A number with its top bit flipped, when that bit is a sign. -/
def flip {bits : ℕ} (signed : Bool) (v : BitVec bits) : ℕ :=
  (v ^^^ if signed then BitVec.ofNat bits 1 <<< (bits - 1) else 0).toNat

theorem flip_lt {bits : ℕ} (signed : Bool) (v : BitVec bits) : flip signed v < 2 ^ bits := BitVec.isLt _

/-- Flipping the top bit of a number moves it by half of what the bits hold. -/
theorem xor_top {x k : ℕ} (h : x < 2 ^ (k + 1)) : x ^^^ 2 ^ k = if x < 2 ^ k then x + 2 ^ k else x - 2 ^ k := by
  have hpos : 0 < 2 ^ k := Nat.two_pow_pos k
  have hself := Nat.div_add_mod x (2 ^ k)
  have hflip := Nat.div_add_mod (x ^^^ 2 ^ k) (2 ^ k)
  rw [Nat.xor_div_two_pow, Nat.xor_mod_two_pow, Nat.div_self hpos, Nat.mod_self, Nat.xor_zero] at hflip
  have hdigit : x / 2 ^ k < 2 := Nat.div_lt_of_lt_mul (by rwa [Nat.mul_comm, ← pow_succ'])
  have hrest := Nat.mod_lt x hpos
  generalize x / 2 ^ k = q at *
  obtain rfl | rfl : q = 0 ∨ q = 1 := by omega
  · rw [if_pos (by omega), ← hflip]
    simp only [Nat.zero_xor]
    omega
  · rw [if_neg (by omega), ← hflip]
    simp only [Nat.xor_self]
    omega

/-- **A flipped number is the number moved up.** -/
theorem flip_eq {bits : ℕ} (hbits : 0 < bits) (signed : Bool) (v : BitVec bits) :
    (flip signed v : ℤ) = (if signed then v.toInt else v.toNat) + if signed then 2 ^ (bits - 1) else 0 := by
  cases signed with
  | false => simp [flip]
  | true =>
    obtain ⟨k, rfl⟩ : ∃ k, bits = k + 1 := ⟨bits - 1, by omega⟩
    have htop : (BitVec.ofNat (k + 1) 1 <<< k).toNat = 2 ^ k := by
      rw [BitVec.toNat_shiftLeft, BitVec.toNat_ofNat, Nat.shiftLeft_eq,
        Nat.mod_eq_of_lt (Nat.one_lt_two_pow (by omega)), Nat.one_mul,
        Nat.mod_eq_of_lt (Nat.pow_lt_pow_right (by decide) (by omega))]
    have hv := v.isLt
    have hdouble : 2 ^ (k + 1) = 2 * 2 ^ k := pow_succ' 2 k
    simp only [flip, if_true, Nat.add_sub_cancel, BitVec.toNat_xor, htop, xor_top hv, BitVec.toInt_eq_toNat_cond]
    have hcast : (2 : ℤ) ^ k = ((2 ^ k : ℕ) : ℤ) := by push_cast; rfl
    rw [hcast, hdouble]
    rw [hdouble] at hv
    generalize 2 ^ k = half at *
    split <;> split <;> omega

/-- **Flipped numbers order as the numbers do.** -/
theorem cmp_flip {bits : ℕ} (hbits : 0 < bits) (signed : Bool) (v w : BitVec bits) :
    cmp (flip signed v) (flip signed w) =
      cmp (if signed then v.toInt else (v.toNat : ℤ)) (if signed then w.toInt else (w.toNat : ℤ)) := by
  have hcast := (Nat.strictMono_cast (α := ℤ)).cmp_map_eq (flip signed v) (flip signed w)
  rw [← hcast, flip_eq hbits, flip_eq hbits]
  simp only [cmp, cmpUsing, add_lt_add_iff_right]

end OrderKeys
