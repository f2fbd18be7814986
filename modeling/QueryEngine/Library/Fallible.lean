import Mathlib

/-!
# Library/Fallible — what a successful run of fallible steps did

A run of steps in `Except` succeeds exactly when each step does; these lemmas take a successful run
apart into its steps' results, so a proof never opens the monad.
-/

namespace Fallible

variable {ε α β : Type*}

/-- **A sequence succeeds exactly when both its steps do.** -/
theorem bind_eq_ok {x : Except ε α} {f : α → Except ε β} {b : β} :
    x.bind f = .ok b ↔ ∃ a, x = .ok a ∧ f a = .ok b := by
  cases x with
  | error e => simp [Except.bind]
  | ok a => simp [Except.bind]

/-- A mapped step succeeds exactly when the step does. -/
theorem map_eq_ok {x : Except ε α} {f : α → β} {b : β} :
    x.map f = .ok b ↔ ∃ a, x = .ok a ∧ f a = b := by
  cases x with
  | error e => simp [Except.map]
  | ok a => simp [Except.map]

end Fallible

namespace Fallible

variable {ε : Type} {α β : Type}

/-- The steps of a list succeed together exactly when there is a result for each, in order. -/
theorem mapM_eq_ok {f : α → Except ε β} : ∀ {xs : List α} {ys : List β},
    xs.mapM f = .ok ys ↔ List.Forall₂ (fun x y => f x = .ok y) xs ys
  | [], ys => by
    rw [List.mapM_nil]
    constructor
    · intro h
      obtain rfl := Except.ok.inj h
      exact .nil
    · rintro ⟨⟩
      rfl
  | x :: xs, ys => by
    rw [List.mapM_cons]
    constructor
    · intro h
      obtain ⟨y, hy, h⟩ := bind_eq_ok.mp h
      obtain ⟨rest, hrest, h⟩ := bind_eq_ok.mp h
      obtain rfl := Except.ok.inj h
      exact .cons hy (mapM_eq_ok.mp hrest)
    · rintro (_ | ⟨hy, hrest⟩)
      exact bind_eq_ok.mpr ⟨_, hy, bind_eq_ok.mpr ⟨_, mapM_eq_ok.mpr hrest, rfl⟩⟩

/-- Steps that each succeed succeed together. -/
theorem exists_mapM {f : α → Except ε β} : ∀ {xs : List α}, (∀ x ∈ xs, ∃ y, f x = .ok y) →
    ∃ ys, xs.mapM f = .ok ys
  | [], _ => ⟨[], rfl⟩
  | x :: xs, h => by
    obtain ⟨y, hy⟩ := h x List.mem_cons_self
    obtain ⟨ys, hys⟩ := exists_mapM fun x hx => h x (List.mem_cons_of_mem _ hx)
    exact ⟨y :: ys, mapM_eq_ok.mpr (.cons hy (mapM_eq_ok.mp hys))⟩

/-- Steps whose results are mapped succeed together as the steps do. -/
theorem mapM_map {γ : Type} (f : α → Option β) (g : β → γ) (xs : List α) :
    xs.mapM (fun a => (f a).map g) = (xs.mapM f).map (List.map g) := by
  induction xs with
  | nil => rfl
  | cons x xs ih =>
    rw [List.mapM_cons, List.mapM_cons, ih]
    cases f x with
    | none => rfl
    | some b => cases xs.mapM f <;> rfl

/-- Partial steps succeed together exactly when there is a result for each, in order. -/
theorem mapM_eq_some {f : α → Option β} : ∀ {xs : List α} {ys : List β},
    xs.mapM f = some ys ↔ List.Forall₂ (fun x y => f x = some y) xs ys
  | [], ys => by
    rw [List.mapM_nil]
    constructor
    · intro h
      obtain rfl := Option.some.inj h
      exact .nil
    · rintro ⟨⟩
      rfl
  | x :: xs, ys => by
    rw [List.mapM_cons]
    constructor
    · intro h
      obtain ⟨y, hy, h⟩ := Option.bind_eq_some_iff.mp h
      obtain ⟨rest, hrest, h⟩ := Option.bind_eq_some_iff.mp h
      obtain rfl := Option.some.inj h
      exact .cons hy (mapM_eq_some.mp hrest)
    · rintro (_ | ⟨hy, hrest⟩)
      exact Option.bind_eq_some_iff.mpr ⟨_, hy,
        Option.bind_eq_some_iff.mpr ⟨_, mapM_eq_some.mpr hrest, rfl⟩⟩

/-- Partial steps succeed together when each does. -/
theorem isSome_mapM (f : α → Option β) (xs : List α) :
    (xs.mapM f).isSome = xs.all fun x => (f x).isSome := by
  induction xs with
  | nil => rfl
  | cons x xs ih =>
    rw [List.mapM_cons, List.all_cons, ← ih]
    cases f x with
    | none => rfl
    | some b => cases xs.mapM f <;> rfl

/-- Looking up every index of a list gives the list. -/
theorem mapM_range_getElem? (xs : List α) :
    (List.range xs.length).mapM (fun i => xs[i]?) = some xs := by
  induction xs with
  | nil => rfl
  | cons x xs ih =>
    rw [List.length_cons, List.range_succ_eq_map, List.mapM_cons, List.getElem?_cons_zero]
    simp only [List.mapM_map, Function.comp_def, List.getElem?_cons_succ]
    rw [ih]
    rfl

/-- Checks of a list succeed together exactly when each does. -/
theorem forM_eq_ok {f : α → Except ε PUnit} : ∀ {xs : List α}, xs.forM f = .ok ⟨⟩ ↔ ∀ x ∈ xs, f x = .ok ⟨⟩
  | [] => by simp [List.forM, pure, Except.pure]
  | x :: xs => by
    change (f x).bind (fun _ => xs.forM f) = .ok ⟨⟩ ↔ _
    refine bind_eq_ok.trans ⟨?_, fun h => ⟨⟨⟩, h x List.mem_cons_self, forM_eq_ok.mpr fun y hy => ?_⟩⟩
    · rintro ⟨_, hx, hxs⟩ y hy
      rcases List.mem_cons.mp hy with rfl | hy
      · exact hx
      · exact forM_eq_ok.mp hxs y hy
    · exact h y (List.mem_cons_of_mem _ hy)

section Fold

variable {σ : Type} {f : σ → α → Except ε σ}

/-- A fold over one element more succeeds exactly when the fold before it and its last step do. -/
theorem foldlM_concat_eq_ok {xs : List α} {x : α} {s t : σ} :
    (xs ++ [x]).foldlM f s = .ok t ↔ ∃ mid, xs.foldlM f s = .ok mid ∧ f mid x = .ok t := by
  rw [List.foldlM_append]
  refine bind_eq_ok.trans (exists_congr fun mid => and_congr_right fun _ => ?_)
  rw [List.foldlM_cons]
  refine bind_eq_ok.trans ⟨?_, fun h => ⟨t, h, rfl⟩⟩
  rintro ⟨next, hnext, h⟩
  obtain rfl := Except.ok.inj h
  exact hnext

/-- **What every step of a fold keeps holds where it ends**, of all it went over. -/
theorem foldlM_run {P : List α → σ → Prop} {xs : List α} {s t : σ} (h : xs.foldlM f s = .ok t) (hstart : P [] s)
    (hstep : ∀ done mid x next, x ∈ xs → P done mid → f mid x = .ok next → P (done ++ [x]) next) : P xs t := by
  induction xs using List.reverseRecOn generalizing t with
  | nil =>
    obtain rfl := Except.ok.inj h
    exact hstart
  | append_singleton xs x ih =>
    obtain ⟨mid, hmid, hlast⟩ := foldlM_concat_eq_ok.mp h
    refine hstep xs mid x t (by simp) (ih hmid fun done mid y next hy => hstep done mid y next ?_) hlast
    exact List.mem_append_left _ hy

end Fold

end Fallible
