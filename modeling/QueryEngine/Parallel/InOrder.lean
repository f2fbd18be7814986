import QueryEngine.Parallel.Stages

/-!
# Parallel/InOrder — a fork without helpers runs its items in order

A fork of one item, or in a pool of one thread, opens no stage: it is one call, which runs an item
after the other.  Such a call is on one stack only (`InSequence`), so no step but its own moves it: it
has run the items up to the one it is in, and returns after the last.
-/

open Relation

namespace QueryEngine

namespace Parallel

variable {τ π : Type} {s s' : State τ π}

/-- Waking a thread changes the call on top, from asleep to checking. -/
theorem woken_cases (s : State τ π) (q : ℕ) (frames : List (Frame π)) :
    s.woken q frames = frames ∨ ∃ k previous rest, frames = .run k previous (.wait .asleep) :: rest ∧
      (s.stage k).query = q ∧ s.woken q frames = .run k previous (.wait .lock) :: rest := by
  unfold State.woken
  split
  · split
    · next hq => exact .inr ⟨_, _, _, rfl, hq, rfl⟩
    · exact .inl rfl
  · exact .inl rfl

/-- A thread that is not asleep is not woken. -/
theorem woken_of_ne {t : τ} {frame : Frame π} {rest : List (Frame π)} {q : ℕ}
    (hstack : s.stack t = frame :: rest)
    (hframe : ∀ k previous, frame ≠ .run k previous (.wait .asleep)) :
    (s.notifyAll q).stack t = frame :: rest := by
  change s.woken q (s.stack t) = _
  rw [hstack]
  rcases woken_cases s q (frame :: rest) with h | ⟨j, previous, rest', heq, -, -⟩
  · exact h
  · exact absurd (List.cons.inj heq).1 (hframe j previous)

section Calls

variable [DecidableEq τ] {t : τ} {frame : Frame π} {rest frames : List (Frame π)}

@[simp] theorem stack_calls_self : (s.calls t frames).stack t = frames := Function.update_self ..

theorem stack_calls_of_ne {u : τ} (h : u ≠ t) : (s.calls t frames).stack u = s.stack u :=
  Function.update_of_ne h ..

end Calls

/-! ## The calls that run items in order -/

/-- The fork without helpers a call is, its items and the one it is in. -/
def Frame.order : Frame π → Option (ℕ × ℕ × ℕ)
  | inOrder o len i => some (o, len, i)
  | _ => none

/-- The forks without helpers that some calls are. -/
def ordersIn (frames : List (Frame π)) : List (ℕ × ℕ × ℕ) := frames.filterMap Frame.order

@[simp] theorem ordersIn_cons (f : Frame π) (fs : List (Frame π)) :
    ordersIn (f :: fs) = f.order.toList ++ ordersIn fs := by
  rw [ordersIn, List.filterMap_cons]
  cases f.order <;> rfl

theorem ordersIn_append (fs gs : List (Frame π)) : ordersIn (fs ++ gs) = ordersIn fs ++ ordersIn gs :=
  List.filterMap_append

theorem ordersIn_woken (q : ℕ) (frames : List (Frame π)) : ordersIn (s.woken q frames) = ordersIn frames := by
  obtain h | ⟨j, previous, rest, rfl, -, h⟩ := woken_cases s q frames
  · rw [h]
  · rw [h, ordersIn_cons, ordersIn_cons]
    rfl

/-- What a call does next is no fork without helpers. -/
theorem ordersIn_next {frame : Frame π} {frames : List (Frame π)} (h : frame.next = some frames) :
    frame.order = none ∧ ordersIn frames = [] := by
  unfold Frame.next at h
  split at h
  case h_7 => cases h
  all_goals
    obtain rfl := Option.some.inj h
    exact ⟨rfl, rfl⟩

section Stacks

variable [DecidableEq τ] {t : τ} {frame : Frame π} {rest : List (Frame π)}

/-- A call that is no such fork, replaced by others that are none. -/
theorem ordersIn_calls (frames : List (Frame π)) (hstack : s.stack t = frame :: rest)
    (hframe : frame.order = none) (hframes : ordersIn frames = []) (u : τ) :
    ordersIn ((s.calls t (frames ++ rest)).stack u) = ordersIn (s.stack u) := by
  by_cases hu : u = t
  · rw [hu, stack_calls_self, ordersIn_append, hframes, hstack, ordersIn_cons, hframe]
    rfl
  · rw [stack_calls_of_ne hu]

end Stacks

/-- Whether a fork ran its items in order, each once, on one thread. -/
def OrderTrace.InTurn (trace : OrderTrace τ π) : Prop :=
  trace.calls.map Prod.fst = List.range trace.calls.length ∧ trace.calls.length ≤ trace.len ∧
    ∀ c ∈ trace.calls, ∀ d ∈ trace.calls, c.2 = d.2

theorem OrderTrace.inTurn_range (t : τ) {len n : ℕ} (h : n ≤ len) (returned : Option (Option π)) :
    (⟨len, (List.range n).map (·, t), returned⟩ : OrderTrace τ π).InTurn := by
  refine ⟨?_, ?_, fun c hc d hd => ?_⟩
  · rw [List.map_map, List.length_map, List.length_range]
    exact List.map_id _
  · rw [List.length_map, List.length_range]
    exact h
  · obtain ⟨-, -, rfl⟩ := List.mem_map.mp hc
    obtain ⟨-, -, rfl⟩ := List.mem_map.mp hd
    rfl

/-- **A fork without helpers is one call**, of a thread that has run its items up to the one it is in; one that has
returned ran them all. -/
structure InSequence (s : State τ π) : Prop where
  fresh : ∀ o, s.orders ≤ o → s.order o = .none
  known : ∀ t, ∀ f ∈ ordersIn (s.stack t), f.1 < s.orders
  apart : ∀ t, ((ordersIn (s.stack t)).map Prod.fst).Nodup
  alone : ∀ t u, ∀ f ∈ ordersIn (s.stack t), ∀ g ∈ ordersIn (s.stack u), f.1 = g.1 → t = u
  running : ∀ t, ∀ f ∈ ordersIn (s.stack t), f.2.2 < f.2.1 ∧
    s.order f.1 = ⟨f.2.1, (List.range (f.2.2 + 1)).map (·, t), none⟩
  inTurn : ∀ o, (s.order o).InTurn
  returned : ∀ o, (s.order o).returned = some none → (s.order o).calls.length = (s.order o).len

namespace InSequence

theorem init : InSequence (State.init : State τ π) :=
  ⟨fun _ _ => rfl, fun _ _ h => absurd h List.not_mem_nil, fun _ => List.nodup_nil,
    fun _ _ _ h => absurd h List.not_mem_nil, fun _ _ h => absurd h List.not_mem_nil,
    fun _ => ⟨rfl, le_rfl, nofun⟩, fun _ _ => rfl⟩

/-- A step of other calls. -/
theorem congr (h : InSequence s) (hstack : ∀ u, ordersIn (s'.stack u) = ordersIn (s.stack u))
    (horders : s'.orders = s.orders) (horder : s'.order = s.order) : InSequence s' := by
  refine ⟨?_, ?_, ?_, ?_, ?_, ?_, ?_⟩
  · rw [horders, horder]
    exact h.fresh
  · simpa only [hstack, horders] using h.known
  · simpa only [hstack] using h.apart
  · simpa only [hstack] using h.alone
  · simpa only [hstack, horder] using h.running
  · rw [horder]
    exact h.inTurn
  · rw [horder]
    exact h.returned

variable [DecidableEq τ] {t : τ} {o len i : ℕ} {rest : List (Frame π)}

/-- What is below a call that runs items in order is other forks. -/
theorem below (h : InSequence s) (hstack : s.stack t = .inOrder o len i :: rest) :
    (∀ u, ∀ f ∈ ordersIn ((s.calls t rest).stack u), f ∈ ordersIn (s.stack u) ∧ f.1 ≠ o) ∧
      ((ordersIn rest).map Prod.fst).Nodup := by
  have hown : (o, len, i) ∈ ordersIn (s.stack t) := by
    rw [hstack, ordersIn_cons]
    exact List.mem_cons_self
  have hnodup := h.apart t
  rw [hstack, ordersIn_cons] at hnodup
  obtain ⟨hout, hrest⟩ := List.nodup_cons.mp hnodup
  refine ⟨fun u f hf => ?_, hrest⟩
  by_cases hu : u = t
  · rw [hu, stack_calls_self] at hf
    refine ⟨by rw [hu, hstack, ordersIn_cons]; exact List.mem_cons_of_mem _ hf, fun ho => hout ?_⟩
    exact List.mem_map.mpr ⟨f, hf, ho⟩
  · rw [stack_calls_of_ne hu] at hf
    exact ⟨hf, fun ho => hu (h.alone u t f hf _ hown ho)⟩

omit [DecidableEq τ] in
/-- The trace of a fork without helpers that a call is. -/
theorem order_eq (h : InSequence s) (hstack : s.stack t = .inOrder o len i :: rest) :
    o < s.orders ∧ i < len ∧ s.order o = ⟨len, (List.range (i + 1)).map (·, t), none⟩ := by
  have hown : (o, len, i) ∈ ordersIn (s.stack t) := by
    rw [hstack, ordersIn_cons]
    exact List.mem_cons_self
  exact ⟨h.known t _ hown, h.running t _ hown⟩

/-- A fork without helpers ends: after its last item, or at a panic. -/
theorem ends (h : InSequence s) (hstack : s.stack t = .inOrder o len i :: rest) (raised : Option π)
    (hraised : raised = none → len ≤ i + 1) : InSequence { s.calls t rest with
      order := Function.update s.order o { s.order o with returned := some raised } } := by
  obtain ⟨hbelow, hnodup⟩ := h.below hstack
  obtain ⟨hknown, hlt, horder⟩ := h.order_eq hstack
  refine ⟨fun p hp => ?_, fun u f hf => h.known u f (hbelow u f hf).1, fun u => ?_,
    fun u v f hf g hg => h.alone u v f (hbelow u f hf).1 g (hbelow v g hg).1, fun u f hf => ?_,
    fun p => ?_, fun p hp => ?_⟩
  · change Function.update s.order o _ p = _
    rw [Function.update_of_ne (hknown.trans_le hp).ne']
    exact h.fresh p hp
  · change ((ordersIn ((s.calls t rest).stack u)).map Prod.fst).Nodup
    by_cases hu : u = t
    · rw [hu, stack_calls_self]
      exact hnodup
    · rw [stack_calls_of_ne hu]
      exact h.apart u
  · change _ ∧ Function.update s.order o _ f.1 = _
    rw [Function.update_of_ne (hbelow u f hf).2]
    exact h.running u f (hbelow u f hf).1
  · change (Function.update s.order o _ p).InTurn
    by_cases hpo : p = o
    · rw [hpo, Function.update_self, horder]
      exact OrderTrace.inTurn_range t hlt _
    · rw [Function.update_of_ne hpo]
      exact h.inTurn p
  · change (Function.update s.order o _ p).returned = _ at hp
    change (Function.update s.order o _ p).calls.length = (Function.update s.order o _ p).len
    by_cases hpo : p = o
    · rw [hpo, Function.update_self] at hp ⊢
      rw [horder, List.length_map, List.length_range]
      exact le_antisymm hlt (hraised (Option.some.inj hp))
    · rw [Function.update_of_ne hpo] at hp ⊢
      exact h.returned p hp

/-- A fork without helpers goes on to its next item. -/
theorem goes_on (h : InSequence s) (hstack : s.stack t = .inOrder o len i :: rest) (hlt : i + 1 < len) :
    InSequence { s.calls t (.inOrder o len (i + 1) :: rest) with
      order := Function.update s.order o { s.order o with calls := (s.order o).calls ++ [(i + 1, t)] } } := by
  obtain ⟨hbelow, hnodup⟩ := h.below hstack
  obtain ⟨hknown, -, horder⟩ := h.order_eq hstack
  have hown : (o, len, i) ∈ ordersIn (s.stack t) := by
    rw [hstack, ordersIn_cons]
    exact List.mem_cons_self
  have hcases : ∀ u, ∀ f ∈ ordersIn ((s.calls t (.inOrder o len (i + 1) :: rest)).stack u),
      (u = t ∧ f = (o, len, i + 1)) ∨ f ∈ ordersIn ((s.calls t rest).stack u) := by
    intro u f hf
    by_cases hu : u = t
    · rw [hu, stack_calls_self, ordersIn_cons] at hf
      rw [hu, stack_calls_self]
      exact (List.mem_cons.mp hf).imp (fun hf => ⟨rfl, hf⟩) id
    · rw [stack_calls_of_ne hu] at hf ⊢
      exact .inr hf
  have hstands : ∀ u, ∀ f ∈ ordersIn ((s.calls t (.inOrder o len (i + 1) :: rest)).stack u),
      ∃ g ∈ ordersIn (s.stack u), g.1 = f.1 := by
    intro u f hf
    obtain ⟨rfl, rfl⟩ | hf := hcases u f hf
    · exact ⟨_, hown, rfl⟩
    · exact ⟨f, (hbelow u f hf).1, rfl⟩
  refine ⟨fun p hp => ?_, fun u f hf => ?_, fun u => ?_, fun u v f hf g hg hfg => ?_, fun u f hf => ?_,
    fun p => ?_, fun p hp => ?_⟩
  · change Function.update s.order o _ p = _
    rw [Function.update_of_ne (hknown.trans_le hp).ne']
    exact h.fresh p hp
  · obtain ⟨g, hg, hfg⟩ := hstands u f hf
    exact hfg ▸ h.known u g hg
  · change ((ordersIn ((s.calls t (.inOrder o len (i + 1) :: rest)).stack u)).map Prod.fst).Nodup
    by_cases hu : u = t
    · rw [hu, stack_calls_self]
      have hsame := h.apart t
      rw [hstack] at hsame
      exact hsame
    · rw [stack_calls_of_ne hu]
      exact h.apart u
  · obtain ⟨f', hf', hfst⟩ := hstands u f hf
    obtain ⟨g', hg', hgst⟩ := hstands v g hg
    exact h.alone u v f' hf' g' hg' (hfst.trans (hfg.trans hgst.symm))
  · change _ ∧ Function.update s.order o _ f.1 = _
    obtain ⟨rfl, rfl⟩ | hf := hcases u f hf
    · refine ⟨hlt, ?_⟩
      rw [Function.update_self, horder, List.range_succ (n := i + 1), List.map_append]
      rfl
    · rw [Function.update_of_ne (hbelow u f hf).2]
      exact h.running u f (hbelow u f hf).1
  · change (Function.update s.order o _ p).InTurn
    by_cases hpo : p = o
    · have hcalls : (List.range (i + 1)).map (·, t) ++ [(i + 1, t)] = (List.range (i + 2)).map (·, t) := by
        rw [List.range_succ (n := i + 1), List.map_append]
        rfl
      rw [hpo, Function.update_self, horder]
      dsimp only
      rw [hcalls]
      exact OrderTrace.inTurn_range t hlt _
    · rw [Function.update_of_ne hpo]
      exact h.inTurn p
  · change (Function.update s.order o _ p).returned = _ at hp
    change (Function.update s.order o _ p).calls.length = (Function.update s.order o _ p).len
    by_cases hpo : p = o
    · rw [hpo, Function.update_self, horder] at hp
      cases hp
    · rw [Function.update_of_ne hpo] at hp ⊢
      exact h.returned p hp

/-- A fork without helpers starts with its first item. -/
theorem starts (h : InSequence s) (hlen : 0 < len) : InSequence { s.calls t (.inOrder s.orders len 0 :: s.stack t) with
    orders := s.orders + 1
    order := Function.update s.order s.orders ⟨len, [(0, t)], none⟩ } := by
  have hcases : ∀ u, ∀ f ∈ ordersIn ((s.calls t (.inOrder s.orders len 0 :: s.stack t)).stack u),
      (u = t ∧ f = (s.orders, len, 0)) ∨ f ∈ ordersIn (s.stack u) := by
    intro u f hf
    by_cases hu : u = t
    · rw [hu, stack_calls_self, ordersIn_cons] at hf
      rw [hu]
      exact (List.mem_cons.mp hf).imp (fun hf => ⟨rfl, hf⟩) id
    · rw [stack_calls_of_ne hu] at hf
      exact .inr hf
  refine ⟨fun p hp => ?_, fun u f hf => ?_, fun u => ?_, fun u v f hf g hg hfg => ?_, fun u f hf => ?_,
    fun p => ?_, fun p hp => ?_⟩
  · change Function.update s.order s.orders _ p = _
    rw [Function.update_of_ne (Nat.lt_of_succ_le hp).ne']
    exact h.fresh p (Nat.le_of_succ_le hp)
  · obtain ⟨-, rfl⟩ | hf := hcases u f hf
    · exact Nat.lt_succ_self _
    · exact (h.known u f hf).trans (Nat.lt_succ_self _)
  · change ((ordersIn ((s.calls t (.inOrder s.orders len 0 :: s.stack t)).stack u)).map Prod.fst).Nodup
    by_cases hu : u = t
    · rw [hu, stack_calls_self, ordersIn_cons]
      refine List.nodup_cons.mpr ⟨fun hmem => ?_, h.apart t⟩
      obtain ⟨f, hf, hfst⟩ := List.mem_map.mp hmem
      exact (h.known t f hf).ne hfst
    · rw [stack_calls_of_ne hu]
      exact h.apart u
  · obtain ⟨hu, rfl⟩ | hf' := hcases u f hf
    · obtain ⟨hv, -⟩ | hg' := hcases v g hg
      · exact hu.trans hv.symm
      · exact absurd hfg.symm (h.known v g hg').ne
    · obtain ⟨-, rfl⟩ | hg' := hcases v g hg
      · exact absurd hfg (h.known u f hf').ne
      · exact h.alone u v f hf' g hg' hfg
  · change _ ∧ Function.update s.order s.orders _ f.1 = _
    obtain ⟨rfl, rfl⟩ | hf := hcases u f hf
    · exact ⟨hlen, Function.update_self ..⟩
    · rw [Function.update_of_ne (h.known u f hf).ne]
      exact h.running u f hf
  · change (Function.update s.order s.orders _ p).InTurn
    by_cases hpo : p = s.orders
    · rw [hpo, Function.update_self]
      exact OrderTrace.inTurn_range t (n := 1) hlen _
    · rw [Function.update_of_ne hpo]
      exact h.inTurn p
  · change (Function.update s.order s.orders _ p).returned = _ at hp
    change (Function.update s.order s.orders _ p).calls.length = (Function.update s.order s.orders _ p).len
    by_cases hpo : p = s.orders
    · rw [hpo, Function.update_self] at hp
      cases hp
    · rw [Function.update_of_ne hpo] at hp ⊢
      exact h.returned p hp

/-- **Every step keeps the forks without helpers in order.** -/
theorem step (h : InSequence s) (hstep : Step s s') : InSequence s' := by
  cases hstep with
  | forkInOrder _ hlen _ => exact h.starts hlen
  | inOrderNext hstack hlt => exact h.goes_on hstack hlt
  | inOrderEnd hstack hlast => exact h.ends hstack none fun _ => hlast
  | inOrderPanic panic hstack => exact h.ends hstack (some panic) nofun
  | @fork t len threads _ _ _ =>
    refine h.congr (fun u => ?_) rfl rfl
    change ordersIn ((s.calls t (.run s.stages (s.current t) .notify :: s.stack t)).stack u) = _
    by_cases hu : u = t
    · rw [hu, stack_calls_self, ordersIn_cons]
      rfl
    · rw [stack_calls_of_ne hu]
  | @start t j k hidle _ =>
    refine h.congr (fun u => ?_) rfl rfl
    change ordersIn ((s.calls t [.helper k (s.current t) .spread]).stack u) = _
    by_cases hu : u = t
    · rw [hu, stack_calls_self, hidle]
      rfl
    · rw [stack_calls_of_ne hu]
  | next hstack hnext =>
    exact h.congr (ordersIn_calls _ hstack (ordersIn_next hnext).1 (ordersIn_next hnext).2) rfl rfl
  | @notifyOpened t k previous rest hstack =>
    exact h.congr (fun u => (ordersIn_calls (s := s.notifyAll (s.stage k).query) [.run k previous .spread]
      (woken_of_ne hstack (by simp)) rfl rfl u).trans (ordersIn_woken _ _)) rfl rfl
  | @notifyFinished t k rest hstack =>
    exact h.congr (fun u => (ordersIn_calls (s := s.notifyAll (s.stage k).query) [.help k .claim]
      (woken_of_ne hstack (by simp)) rfl rfl u).trans (ordersIn_woken _ _)) rfl rfl
  | spreadNone hstack _ | leave hstack | spreadSpent hstack _ | claimNone hstack _ | take hstack =>
    exact h.congr (ordersIn_calls [] hstack rfl rfl) rfl rfl
  | waitHelp hstack _ => exact h.congr (ordersIn_calls [_, _] hstack rfl rfl) rfl rfl
  | spreadLoad hstack _ | waitOn hstack _ | waitNone hstack _ | notifyLock hstack _ | wake hstack
  | itemReturns hstack | waitLock hstack _ | sleep hstack | spreadSpawn hstack _ | claim hstack _
  | keepFirst hstack | settle hstack | itemPanics _ hstack | waitDone hstack _ | close hstack _ =>
    exact h.congr (ordersIn_calls [_] hstack rfl rfl) rfl rfl

/-- What has ended stays as it ended. -/
theorem order_step (h : InSequence s) (hended : (s.order o).returned ≠ none) (hstep : Step s s') :
    s'.order o = s.order o := by
  have hne : ∀ {t p len i rest}, s.stack t = .inOrder p len i :: rest → o ≠ p := by
    rintro t p len i rest hstack rfl
    rw [(h.order_eq hstack).2.2] at hended
    exact hended rfl
  cases hstep with
  | forkInOrder _ _ _ =>
    refine Function.update_of_ne (fun ho => hended ?_) _ _
    rw [ho, h.fresh s.orders le_rfl]
    rfl
  | inOrderNext hstack _ | inOrderEnd hstack _ | inOrderPanic _ hstack =>
    exact Function.update_of_ne (hne hstack) _ _
  | _ => rfl

theorem order_run (h : InSequence s) (hended : (s.order o).returned ≠ none) (hrun : ReflTransGen Step s s') :
    s'.order o = s.order o := by
  have hboth : InSequence s' ∧ s'.order o = s.order o := by
    induction hrun with
    | refl => exact ⟨h, rfl⟩
    | tail _ hstep ih =>
      exact ⟨ih.1.step hstep, (ih.1.order_step (by rw [ih.2]; exact hended) hstep).trans ih.2⟩
  exact hboth.2

end InSequence

end Parallel

end QueryEngine
