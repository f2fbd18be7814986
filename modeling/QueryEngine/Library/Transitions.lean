import Mathlib

/-!
# Library/Transitions — runs of a system whose steps are atomic actions

A system is a partial step function: what an action makes of a state, or nothing where the action
cannot be taken.  An interleaving is a list of actions, and what one step preserves every run does —
under a condition on the steps taken, where the step itself asks for one.
-/

namespace Transitions

variable {σ α : Type} {step : σ → α → Option σ}

/-- The state some actions lead to, taken in order. -/
def run (step : σ → α → Option σ) : σ → List α → Option σ
  | s, [] => some s
  | s, a :: as => (step s a).bind fun s' => run step s' as

/-- Every step of a run meets a condition on its state and action. -/
def Along (step : σ → α → Option σ) (ok : σ → α → Prop) : σ → List α → Prop
  | _, [] => True
  | s, a :: as => ok s a ∧ ∀ s', step s a = some s' → Along step ok s' as

@[simp] theorem run_nil (s : σ) : run step s [] = some s := rfl

@[simp] theorem run_cons (s : σ) (a : α) (as : List α) :
    run step s (a :: as) = (step s a).bind fun s' => run step s' as := rfl

/-- **What each step preserves, a run does.** -/
theorem run_preserves_along {ok : σ → α → Prop} {P : σ → Prop}
    (hstep : ∀ s a s', P s → ok s a → step s a = some s' → P s') :
    ∀ {s s' : σ} {as : List α}, P s → Along step ok s as → run step s as = some s' → P s'
  | s, s', [], hs, _, hrun => Option.some.inj hrun ▸ hs
  | s, s', a :: as, hs, ⟨hok, halong⟩, hrun => by
    obtain ⟨mid, hmid, hrest⟩ := Option.bind_eq_some_iff.mp hrun
    exact run_preserves_along hstep (hstep s a mid hs hok hmid) (halong mid hmid) hrest

/-- A condition every step meets holds along every run. -/
theorem along_of_forall {ok : σ → α → Prop} (hok : ∀ s a, ok s a) :
    ∀ (as : List α) (s : σ), Along step ok s as
  | [], _ => trivial
  | a :: as, s => ⟨hok s a, fun s' _ => along_of_forall hok as s'⟩

end Transitions
