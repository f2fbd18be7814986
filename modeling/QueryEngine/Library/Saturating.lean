import Mathlib

/-!
# Library/Saturating — sums that stop at a cap, and the prefix that fits a budget

Adding with a cap is a sum cut once at the end, so its order does not matter.  `Longest budget weights n` says
that `n` is the longest prefix that fits, the first entry taken whatever it weighs.
-/

namespace Saturating

/-- Addition that stops at a cap. -/
def add (cap a b : ℕ) : ℕ := min (a + b) cap

/-- A sum that stops at a cap. -/
def sum (cap : ℕ) (weights : List ℕ) : ℕ := weights.foldl (add cap) 0

variable {cap budget : ℕ} {weights more : List ℕ}

theorem foldl_add {start : ℕ} (h : start ≤ cap) :
    ∀ weights : List ℕ, weights.foldl (add cap) start = min (start + weights.sum) cap
  | [] => by simpa using h
  | weight :: weights => by
    have hstart : add cap start weight ≤ cap := min_le_right _ _
    rw [List.foldl_cons, foldl_add hstart weights, add, List.sum_cons]
    omega

/-- **The cap is met once**: at the end. -/
theorem sum_eq (cap : ℕ) (weights : List ℕ) : sum cap weights = min weights.sum cap := by
  rw [sum, foldl_add (Nat.zero_le cap), Nat.zero_add]

theorem sum_concat (weights : List ℕ) (weight : ℕ) :
    sum cap (weights ++ [weight]) = add cap (sum cap weights) weight := by
  rw [sum, List.foldl_append]
  rfl

theorem sum_le_sum_append (weights more : List ℕ) : sum cap weights ≤ sum cap (weights ++ more) := by
  rw [sum_eq, sum_eq, List.sum_append]
  omega

theorem sum_take_le (weights : List ℕ) {j k : ℕ} (h : j ≤ k) :
    sum cap (weights.take j) ≤ sum cap (weights.take k) := by
  obtain ⟨rest, hrest⟩ := List.take_prefix_take_left h
  rw [← hrest]
  exact sum_le_sum_append _ _

/-! ## The prefix that fits -/

/-- **The longest prefix within a budget**, and the first entry at least. -/
structure Longest (cap budget : ℕ) (weights : List ℕ) (n : ℕ) : Prop where
  le_length : n ≤ weights.length
  le_iff : ∀ k ≤ weights.length, k ≤ n ↔ k ≤ 1 ∨ sum cap (weights.take k) ≤ budget

namespace Longest

variable {n m : ℕ}

theorem nil : Longest cap budget [] 0 :=
  ⟨le_rfl, fun k hk => by simp only [List.length_nil, Nat.le_zero] at hk; simp [hk]⟩

theorem unique (h : Longest cap budget weights n) (h' : Longest cap budget weights m) : n = m :=
  le_antisymm ((h'.le_iff n h.le_length).mpr ((h.le_iff n h.le_length).mp le_rfl))
    ((h.le_iff m h'.le_length).mpr ((h'.le_iff m h'.le_length).mp le_rfl))

/-- A prefix that all fits, or is a first entry, is the longest. -/
theorem whole (h : weights.length ≤ 1 ∨ sum cap weights ≤ budget) :
    Longest cap budget weights weights.length := by
  refine ⟨le_rfl, fun k hk => ⟨fun _ => ?_, fun _ => hk⟩⟩
  rcases h with h | h
  · exact .inl (hk.trans h)
  · refine .inr ((sum_take_le weights hk).trans ?_)
    rwa [List.take_length]

/-- The first entry that no longer fits is left out, unless it is the first. -/
theorem refused (hne : weights ≠ []) (hfits : sum cap weights ≤ budget) {weight : ℕ}
    (hover : budget < sum cap (weights ++ [weight])) :
    Longest cap budget (weights ++ [weight]) weights.length := by
  refine ⟨by simp, fun k hk => ?_⟩
  have hlen : 0 < weights.length := List.length_pos_of_ne_nil hne
  rw [List.length_append, List.length_singleton] at hk
  rcases Nat.lt_or_ge weights.length k with hgt | hle
  · rw [List.take_of_length_le (by simp; omega)]
    omega
  · have hsum : sum cap (weights.take k) ≤ _ := sum_take_le weights hle
    rw [List.take_length] at hsum
    rw [List.take_append_of_le_length hle]
    exact ⟨fun _ => .inr (hsum.trans hfits), fun _ => hle⟩

/-- **Nothing fits after what did not.** -/
theorem append (h : Longest cap budget weights n) (hne : weights ≠ []) (hover : budget < sum cap weights)
    (more : List ℕ) : Longest cap budget (weights ++ more) n := by
  refine ⟨h.le_length.trans (by simp), fun k hk => ?_⟩
  rcases Nat.lt_or_ge weights.length k with hgt | hle
  · have hlen : 0 < weights.length := List.length_pos_of_ne_nil hne
    have hsum : budget < sum cap ((weights ++ more).take k) := by
      rw [List.take_append, List.take_of_length_le hgt.le]
      exact hover.trans_le (sum_le_sum_append _ _)
    have := h.le_length
    omega
  · rw [List.take_append_of_le_length hle]
    exact h.le_iff k hle

/-- A prefix that left an entry out stays the longest. -/
theorem append_of_lt (h : Longest cap budget weights n) (hlt : n < weights.length) (more : List ℕ) :
    Longest cap budget (weights ++ more) n := by
  have hover : ¬(weights.length ≤ 1 ∨ sum cap weights ≤ budget) := fun hfits => by
    rw [← @List.take_length _ weights] at hfits
    exact absurd ((h.le_iff weights.length le_rfl).mpr (by simpa using hfits)) (by omega)
  exact h.append (List.ne_nil_of_length_pos (by omega)) (by omega) more

/-- **A prefix that fits still fits when its entries weigh less.** -/
theorem mono {heavier : List ℕ} (hle : List.Forall₂ (· ≤ ·) weights heavier) (h : Longest cap budget weights n)
    (h' : Longest cap budget heavier m) : m ≤ n := by
  have hkept : m ≤ weights.length := hle.length_eq.symm ▸ h'.le_length
  refine (h.le_iff m hkept).mpr (((h'.le_iff m h'.le_length).mp le_rfl).imp_right fun hfits => ?_)
  rw [sum_eq] at hfits ⊢
  exact (min_le_min_right cap (List.forall₂_take m hle).sum_le_sum).trans hfits

end Longest

end Saturating
