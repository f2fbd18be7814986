import Mathlib

/-!
# Library/Tiling — an interval of numbers, covered by spans one after the other

`Tiles a spans b` says that spans cover the numbers from `a` up to `b` without a gap or an overlap.  So what is cut out
of a list at one span after the other holds of each number what the list does, once (`Tiles.filter_flatMap`).
-/

namespace Tiling

/-- Whether a span holds a number. -/
def holds (span : ℕ × ℕ) (n : ℕ) : Bool := decide (span.1 ≤ n) && decide (n ≤ span.2)

/-- The entries of an ascending list below a number, and then those from it on that pass a test. -/
theorem filter_lt_append {xs : List ℕ} (h : xs.Pairwise (· < ·)) (n : ℕ) (test : ℕ → Bool) :
    xs.filter (fun x => decide (x < n)) ++ xs.filter (fun x => decide (n ≤ x) && test x) =
      xs.filter fun x => decide (x < n) || test x := by
  induction xs with
  | nil => rfl
  | cons x xs ih =>
    obtain ⟨hx, hxs⟩ := List.pairwise_cons.mp h
    have hrest := ih hxs
    rcases Nat.lt_or_ge x n with hlt | hge
    · rw [List.filter_cons_of_pos (by simpa using hlt), List.filter_cons_of_neg (by simp; omega), List.cons_append,
        hrest, List.filter_cons_of_pos (by simp [hlt])]
    · -- the list is past the number
      have hnil : xs.filter (fun x => decide (x < n)) = [] := List.filter_eq_nil_iff.mpr fun y hy => by
        have := hx y hy
        simp only [decide_eq_true_eq]
        omega
      rw [hnil, List.nil_append] at hrest
      rw [List.filter_cons_of_neg (by simpa using hge), hnil, List.nil_append, List.filter_cons, List.filter_cons,
        hrest]
      simp [hge, Nat.not_lt.mpr hge]

section Cut

variable {α : Type} (key : α → Option ℕ) (all : List α) {n : ℕ}

/-- What a test leaves of the entries of one key. -/
theorem filter_any (test : ℕ → Bool) :
    ((all.filter fun x => (key x).any test).filter fun x => key x == some n) =
      if test n then all.filter fun x => key x == some n else [] := by
  rw [List.filter_filter]
  split
  · next hin =>
    refine List.filter_congr fun x _ => ?_
    cases hx : key x == some n with
    | false => simp
    | true => rw [beq_iff_eq.mp hx]; simpa using hin
  · next hout =>
    refine List.filter_eq_nil_iff.mpr fun x _ hx => hout ?_
    obtain ⟨hx, hin⟩ := Bool.and_eq_true_iff.mp hx
    rw [beq_iff_eq.mp hx] at hin
    simpa using hin

/-- Spans without a number cut out nothing of its key. -/
theorem filter_flatMap_eq_nil {spans : List (ℕ × ℕ)} (h : ∀ span ∈ spans, holds span n = false) :
    ((spans.flatMap fun span => all.filter fun x => (key x).any (holds span)).filter fun x => key x == some n) = [] :=
      by
  rw [List.filter_flatMap, List.flatMap_eq_nil_iff]
  intro span hspan
  rw [filter_any, if_neg (by simp [h span hspan])]

end Cut

/-- **Spans cover the numbers from one up to another**, each from the number after the last. -/
inductive Tiles : ℕ → List (ℕ × ℕ) → ℕ → Prop
  | nil (a : ℕ) : Tiles a [] a
  | cons {a b next : ℕ} {spans : List (ℕ × ℕ)} (h : a ≤ b) (rest : Tiles (b + 1) spans next) :
    Tiles a ((a, b) :: spans) next

namespace Tiles

variable {a b c : ℕ} {spans more : List (ℕ × ℕ)}

theorem le (h : Tiles a spans b) : a ≤ b := by
  induction h with
  | nil a => exact le_rfl
  | cons h _ ih => omega

theorem append (h : Tiles a spans b) (hmore : Tiles b more c) : Tiles a (spans ++ more) c := by
  induction h with
  | nil a => exact hmore
  | cons h _ ih => exact .cons h (ih hmore)

theorem eq_of_nil (h : Tiles a [] b) : a = b := by
  cases h
  rfl

/-- One span more. -/
theorem concat (h : Tiles a spans b) (hle : b ≤ c) : Tiles a (spans ++ [(b, c)]) (c + 1) :=
  h.append (.cons hle (.nil _))

/-- Every span is within the interval. -/
theorem span_le (h : Tiles a spans b) : ∀ span ∈ spans, a ≤ span.1 ∧ span.1 ≤ span.2 ∧ span.2 < b := by
  induction h with
  | nil a => exact fun _ hmem => absurd hmem List.not_mem_nil
  | @cons a b next spans h rest ih =>
    intro span hmem
    have hrest := rest.le
    rcases List.mem_cons.mp hmem with rfl | hmem
    · exact ⟨le_rfl, h, by omega⟩
    · have := ih span hmem
      omega

/-- **What is cut at spans one after the other holds of every number what the whole does**, once. -/
theorem filter_flatMap {α : Type} (h : Tiles a spans b) (key : α → Option ℕ) (all : List α) {n : ℕ} (ha : a ≤ n)
    (hb : n < b) :
    ((spans.flatMap fun span => all.filter fun x => (key x).any (holds span)).filter fun x => key x == some n) =
      all.filter fun x => key x == some n := by
  induction h with
  | nil a => omega
  | @cons a c next spans hle rest ih =>
    rw [List.flatMap_cons, List.filter_append, filter_any]
    rcases Nat.lt_or_ge c n with hlt | hge
    · rw [if_neg (by simp [holds]; omega), List.nil_append]
      exact ih hlt hb
    · rw [filter_flatMap_eq_nil key all fun span hspan => ?_, List.append_nil, if_pos (by simp [holds]; omega)]
      have hspan := (rest.span_le span hspan).1
      simp [holds]
      omega

end Tiles

end Tiling
