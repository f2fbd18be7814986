import Mathlib

/-!
# Library/Kleene — masks of three-valued answers, and what they keep

A mask answers `true`, `false` or nothing (`none`) for each row, and a row is *kept* by a `true`
alone.  Two connectives meet on masks: a conjunction that knows nothing once a side knows nothing,
and Kleene's disjunction, which knows `true` as soon as one side does.  Keeping turns both into the
Boolean connectives, so a filter built from masks means what its two-valued reading says.
-/

namespace Kleene

/-- One three-valued answer. -/
abbrev Answer := Option Bool

/-- A mask: one answer for each row. -/
abbrev Mask := List Answer

/-- **Whether an answer keeps its row** — only a known `true` does. -/
def keeps (a : Answer) : Bool := a == some true

@[simp] theorem keeps_some (b : Bool) : keeps (some b) = b := by cases b <;> rfl

@[simp] theorem keeps_none : keeps none = false := rfl

@[simp] theorem keeps_map {α : Type*} (a : Option α) (f : α → Bool) :
    keeps (a.map f) = a.any f := by
  cases a <;> simp

theorem keeps_eq_true_iff {a : Answer} : keeps a = true ↔ a = some true := by
  rcases a with _ | _ | _ <;> decide

/-- The conjunction of two answers: unknown as soon as a side is. -/
def both : Answer → Answer → Answer
  | some a, some b => some (a && b)
  | _, _ => none

/-- Kleene's disjunction: a known `true` decides it, and it is unknown where an unknown side could
still decide it. -/
def either : Answer → Answer → Answer
  | some true, _ => some true
  | _, some true => some true
  | some false, some false => some false
  | _, _ => none

@[simp] theorem keeps_both (a b : Answer) : keeps (both a b) = (keeps a && keeps b) := by
  rcases a with _ | _ | _ <;> rcases b with _ | _ | _ <;> rfl

@[simp] theorem keeps_either (a b : Answer) : keeps (either a b) = (keeps a || keeps b) := by
  rcases a with _ | _ | _ <;> rcases b with _ | _ | _ <;> rfl

namespace Mask

/-- A mask that gives every row one known answer. -/
def all (len : ℕ) (value : Bool) : Mask := List.replicate len (some value)

/-- The conjunction of two masks, row by row. -/
def and (m n : Mask) : Mask := List.zipWith both m n

/-- Kleene's disjunction of two masks, row by row. -/
def or (m n : Mask) : Mask := List.zipWith either m n

/-- The rows a mask keeps, as two-valued answers. -/
def kept (m : Mask) : List Bool := m.map keeps

@[simp] theorem length_all (len : ℕ) (value : Bool) : (all len value).length = len :=
  List.length_replicate

@[simp] theorem kept_all (len : ℕ) (value : Bool) :
    kept (all len value) = List.replicate len value := by
  simp [kept, all]

@[simp] theorem length_kept (m : Mask) : (kept m).length = m.length := List.length_map ..

/-- **Keeping turns the conjunction into the Boolean one.** -/
theorem kept_and : ∀ m n : Mask, kept (and m n) = List.zipWith (· && ·) (kept m) (kept n)
  | [], _ => rfl
  | _ :: _, [] => rfl
  | a :: m, b :: n => by
    have ih := kept_and m n
    simp only [kept, and, List.zipWith_cons_cons, List.map_cons, keeps_both] at ih ⊢
    rw [ih]

/-- **Keeping turns Kleene's disjunction into the Boolean one.** -/
theorem kept_or : ∀ m n : Mask, kept (or m n) = List.zipWith (· || ·) (kept m) (kept n)
  | [], _ => rfl
  | _ :: _, [] => rfl
  | a :: m, b :: n => by
    have ih := kept_or m n
    simp only [kept, or, List.zipWith_cons_cons, List.map_cons, keeps_either] at ih ⊢
    rw [ih]

end Mask

/-! ## Masks that answer row by row

A filter answers *row by row* when each row's answer is a function of that row alone.  Such filters
commute with every selection of rows, so they may run one after the other. -/

section RowWise

variable {α : Type*}

/-- The rows a row-by-row mask keeps. -/
@[simp] theorem kept_map (f : α → Answer) (rows : List α) :
    Mask.kept (rows.map f) = rows.map fun r => keeps (f r) := by
  simp [Mask.kept]

/-- Known answers keep what they say. -/
@[simp] theorem kept_map_some (xs : List Bool) : Mask.kept (xs.map some) = xs := by
  simp [Mask.kept, Function.comp_def]

/-- The conjunction of two row-by-row masks answers row by row. -/
theorem and_map (f g : α → Answer) (rows : List α) :
    Mask.and (rows.map f) (rows.map g) = rows.map fun r => both (f r) (g r) := by
  simp [Mask.and]

end RowWise

end Kleene
