import QueryEngine.Parallel.InOrder
import QueryEngine.Library.WorkTally

/-!
# Parallel/RunsOnce — a fork runs every item exactly once and waits for all of them

Three invariants of every interleaving: each stage's claims, calls and count are a `WorkTally`
(`Tallied`); a stage's fork is one call, of its opener, which is past its wait only at a count of zero
and holds its stage open until it closes it (`Forked`); and what the stage keeps is the first panic of
its items (`Panicked`).
-/

open Relation

namespace QueryEngine

namespace Parallel

variable {τ π : Type} {s s' : State τ π}

/-! ## Calls, one thread at a time -/

/-- The items of a stage that some calls are in. -/
def runningIn (k : ℕ) (frames : List (Frame π)) : List ℕ := frames.filterMap (Frame.running k)

@[simp] theorem runningIn_nil (k : ℕ) : runningIn k ([] : List (Frame π)) = [] := rfl

theorem runningIn_append (k : ℕ) (fs gs : List (Frame π)) :
    runningIn k (fs ++ gs) = runningIn k fs ++ runningIn k gs := List.filterMap_append

@[simp] theorem runningIn_cons (k : ℕ) (f : Frame π) (fs : List (Frame π)) :
    runningIn k (f :: fs) = (f.running k).toList ++ runningIn k fs := by
  rw [runningIn, List.filterMap_cons]
  cases f.running k <;> rfl

theorem mem_runningIn {k i : ℕ} {frames : List (Frame π)} :
    i ∈ runningIn k frames ↔ ∃ f ∈ frames, f.running k = some i := List.mem_filterMap

theorem runningIn_woken (k q : ℕ) (frames : List (Frame π)) :
    runningIn k (s.woken q frames) = runningIn k frames := by
  rcases woken_cases s q frames with h | ⟨j, previous, rest, rfl, -, h⟩
  · rw [h]
  · rw [h, runningIn_cons, runningIn_cons]
    rfl

section Calls

variable [DecidableEq τ] {t : τ} {frame : Frame π} {rest frames : List (Frame π)}

/-- A call replaced by calls in the same items leaves every thread in the items it was in. -/
theorem runningIn_calls (frames : List (Frame π)) (hstack : s.stack t = frame :: rest) (k : ℕ)
    (hframes : runningIn k frames = (frame.running k).toList) (u : τ) :
    runningIn k ((s.calls t (frames ++ rest)).stack u) = runningIn k (s.stack u) := by
  by_cases hu : u = t
  · rw [hu, stack_calls_self, runningIn_append, hframes, hstack, runningIn_cons]
  · rw [stack_calls_of_ne hu]

/-- A call pushed that is in no item. -/
theorem runningIn_pushed (frame : Frame π) {k : ℕ} (hframe : frame.running k = none) (u : τ) :
    runningIn k ((s.calls t (frame :: s.stack t)).stack u) = runningIn k (s.stack u) := by
  by_cases hu : u = t
  · rw [hu, stack_calls_self, runningIn_cons, hframe]
    rfl
  · rw [stack_calls_of_ne hu]

end Calls

/-! ## What a fork opens and closes -/

section Opened

variable {t : τ} {len threads k q j : ℕ}

theorem holder_close (q : ℕ) : ((s.setQuery (s.stage k).query { s.queryOf k with
    opened := (s.queryOf k).opened.filter fun j => j != k }).query q).holder = (s.query q).holder := by
  change (Function.update s.query (s.stage k).query _ q).holder = _
  by_cases hq : q = (s.stage k).query
  · rw [hq, Function.update_self]
    rfl
  · rw [Function.update_of_ne hq]

/-- A fork closed is its query's no more. -/
theorem mem_opened_close : j ∈ ((s.setQuery (s.stage k).query { s.queryOf k with
    opened := (s.queryOf k).opened.filter fun j => j != k }).query q).opened ↔
    j ∈ (s.query q).opened ∧ (q = (s.stage k).query → j ≠ k) := by
  change j ∈ (Function.update s.query (s.stage k).query _ q).opened ↔ _
  by_cases hq : q = (s.stage k).query
  · rw [hq, Function.update_self, List.mem_filter, bne_iff_ne, forall_prop_of_true rfl]
    rfl
  · rw [Function.update_of_ne hq, and_iff_left fun h => absurd h hq]

variable [DecidableEq τ]

theorem stage_fork_self : (s.fork t len threads).stage s.stages =
    ⟨len, 0, helpers len threads, len, (s.current t).getD s.queries, none⟩ := Function.update_self ..

theorem trace_fork_self : (s.fork t len threads).trace s.stages = ⟨some t, [], [], [], [], none⟩ :=
  Function.update_self ..

theorem stage_fork_of_ne (h : j ≠ s.stages) : (s.fork t len threads).stage j = s.stage j :=
  Function.update_of_ne h ..

theorem trace_fork_of_ne (h : j ≠ s.stages) : (s.fork t len threads).trace j = s.trace j :=
  Function.update_of_ne h ..

theorem holder_fork (q : ℕ) : ((s.fork t len threads).query q).holder = (s.query q).holder := by
  change (Function.update s.query ((s.current t).getD s.queries) _ q).holder = _
  by_cases hq : q = (s.current t).getD s.queries
  · rw [hq, Function.update_self]
  · rw [Function.update_of_ne hq]

/-- A fork is open in its thread's query, or in one of its own. -/
theorem mem_opened_fork : j ∈ ((s.fork t len threads).query q).opened ↔
    j ∈ (s.query q).opened ∨ (j = s.stages ∧ q = (s.current t).getD s.queries) := by
  change j ∈ (Function.update s.query ((s.current t).getD s.queries) _ q).opened ↔ _
  by_cases hq : q = (s.current t).getD s.queries
  · rw [hq, Function.update_self, List.mem_append, List.mem_singleton, and_iff_left rfl]
  · rw [Function.update_of_ne hq, or_iff_left fun h => hq h.2]

end Opened

/-- A call that only calls or returns is in no item, and calls none. -/
theorem running_next {frame : Frame π} {frames : List (Frame π)} (hnext : frame.next = some frames) (k : ℕ) :
    runningIn k frames = (frame.running k).toList := by
  unfold Frame.next at hnext
  split at hnext
  all_goals first
    | (obtain rfl := Option.some.inj hnext; simp [Frame.running])
    | exact absurd hnext (by simp)

/-! ## The tally of a stage -/

/-- **Every stage's calls are tallied.** -/
def Tallied (s : State τ π) : Prop :=
  ∀ k, WorkTally (s.stage k).len (s.stage k).next (s.stage k).unfinished (s.trace k).calls
    (s.trace k).finished fun t => runningIn k (s.stack t)

/-- What the stages' counters say, and the traces of them. -/
def tallies (s : State τ π) (k : ℕ) : (ℕ × ℕ × ℕ) × (List (ℕ × τ) × List ℕ) :=
  (((s.stage k).len, (s.stage k).next, (s.stage k).unfinished),
    ((s.trace k).calls, (s.trace k).finished))

/-- A step that moves no counter and no thread into or out of an item. -/
theorem Tallied.quiet (h : Tallied s) (htally : ∀ k, tallies s' k = tallies s k)
    (hrunning : ∀ k t, runningIn k (s'.stack t) = runningIn k (s.stack t)) : Tallied s' := by
  intro k
  have heq := htally k
  simp only [tallies, Prod.mk.injEq] at heq
  obtain ⟨⟨h1, h2, h3⟩, h4, h5⟩ := heq
  rw [h1, h2, h3, h4, h5, funext (hrunning k)]
  exact h k

theorem tallied_init : Tallied (State.init : State τ π) := fun _ => WorkTally.start 0 _ fun _ => rfl

/-! ## What is named was opened -/

/-- Calls, jobs and queries name only stages that were opened. -/
structure Known (s : State τ π) : Prop where
  fresh : ∀ k, s.stages ≤ k → s.stage k = .none ∧ s.trace k = .none
  frames : ∀ t, ∀ f ∈ s.stack t, ∀ k, f.stage = some k → k < s.stages
  jobs : ∀ k ∈ s.jobs, k < s.stages
  opened : ∀ q, ∀ k ∈ (s.query q).opened, k < s.stages ∧ (s.stage k).query = q

theorem known_init : Known (State.init : State τ π) :=
  ⟨fun _ _ => ⟨rfl, rfl⟩, fun _ _ h => absurd h (by simp [State.init]),
    fun _ h => absurd h (by simp [State.init]), fun _ _ h => absurd h (by simp [State.init])⟩

section Known

variable {t : τ} {frame : Frame π} {rest frames : List (Frame π)} {k : ℕ}

/-- The stage of the call on top. -/
theorem Known.top (h : Known s) (hstack : s.stack t = frame :: rest) (hk : frame.stage = some k) :
    k < s.stages := h.frames t frame (by rw [hstack]; exact List.mem_cons_self) k hk

/-- Only an opened stage is changed. -/
theorem Known.fresh_update (h : Known s) (hk : k < s.stages) (stage : Stage π) (trace : Trace τ π) :
    ∀ j, s.stages ≤ j → Function.update s.stage k stage j = .none ∧
      Function.update s.trace k trace j = .none := by
  intro j hj
  have hne : j ≠ k := by omega
  rw [Function.update_of_ne hne, Function.update_of_ne hne]
  exact h.fresh j hj

theorem Known.fresh_stage (h : Known s) (hk : k < s.stages) (stage : Stage π) :
    ∀ j, s.stages ≤ j → Function.update s.stage k stage j = .none ∧ s.trace j = .none :=
  fun j hj => ⟨(h.fresh_update hk stage (s.trace k) j hj).1, (h.fresh j hj).2⟩

theorem Known.fresh_trace (h : Known s) (hk : k < s.stages) (trace : Trace τ π) :
    ∀ j, s.stages ≤ j → s.stage j = .none ∧ Function.update s.trace k trace j = .none :=
  fun j hj => ⟨(h.fresh j hj).1, (h.fresh_update hk (s.stage k) trace j hj).2⟩

/-- Taking or leaving the lock opens and closes nothing. -/
@[simp] theorem opened_hold (holder : Option τ) (q : ℕ) :
    ((s.hold k holder).query q).opened = (s.query q).opened := by
  unfold State.hold State.setQuery State.queryOf
  by_cases hq : q = (s.stage k).query
  · rw [hq]
    dsimp only
    rw [Function.update_self]
  · dsimp only
    rw [Function.update_of_ne hq]

/-- A stage keeps its query. -/
theorem Known.opened_update (h : Known s) (stage : Stage π) (hquery : stage.query = (s.stage k).query) :
    ∀ q, ∀ j ∈ (s.query q).opened, j < s.stages ∧ (Function.update s.stage k stage j).query = q := by
  intro q j hj
  obtain ⟨hlt, hq⟩ := h.opened q j hj
  refine ⟨hlt, ?_⟩
  by_cases hjk : j = k
  · subst hjk
    rw [Function.update_self, hquery, hq]
  · rw [Function.update_of_ne hjk, hq]

theorem stage_woken {q : ℕ} {frames : List (Frame π)} {f : Frame π} (hf : f ∈ s.woken q frames) :
    ∃ g ∈ frames, g.stage = f.stage := by
  rcases woken_cases s q frames with h | ⟨j, previous, rest, rfl, -, h⟩
  · exact ⟨f, h ▸ hf, rfl⟩
  · rw [h] at hf
    rcases List.mem_cons.mp hf with rfl | hf
    · exact ⟨_, List.mem_cons_self, rfl⟩
    · exact ⟨f, List.mem_cons_of_mem _ hf, rfl⟩

theorem Known.notifyAll (h : Known s) (q : ℕ) : Known (s.notifyAll q) := by
  refine ⟨h.fresh, fun u f hf k hk => ?_, h.jobs, h.opened⟩
  obtain ⟨g, hg, hstage⟩ := stage_woken (s := s) hf
  exact h.frames u g hg k (hstage ▸ hk)

variable [DecidableEq τ]

/-- The calls of a thread whose new ones are known. -/
theorem Known.calls (h : Known s) (hknown : ∀ f ∈ frames, ∀ k, f.stage = some k → k < s.stages) :
    ∀ u, ∀ f ∈ (s.calls t frames).stack u, ∀ k, f.stage = some k → k < s.stages := by
  intro u f hf
  by_cases hu : u = t
  · rw [hu, stack_calls_self] at hf
    exact hknown f hf
  · rw [stack_calls_of_ne hu] at hf
    exact h.frames u f hf

/-- Calls of the stages a call was about are known. -/
theorem Known.replace (h : Known s) (frames : List (Frame π)) (hstack : s.stack t = frame :: rest)
    (hframes : ∀ f ∈ frames, f.stage = frame.stage) :
    ∀ u, ∀ f ∈ (s.calls t (frames ++ rest)).stack u, ∀ k, f.stage = some k → k < s.stages := by
  refine h.calls fun f hf k hk => ?_
  rcases List.mem_append.mp hf with hf | hf
  · exact h.frames t frame (by rw [hstack]; exact List.mem_cons_self) k (hframes f hf ▸ hk)
  · exact h.frames t f (by rw [hstack]; exact List.mem_cons_of_mem _ hf) k hk

/-- A call that only calls or returns is about one stage. -/
theorem stage_next {frame : Frame π} {frames : List (Frame π)} (hnext : frame.next = some frames) :
    ∀ f ∈ frames, f.stage = frame.stage := by
  unfold Frame.next at hnext
  split at hnext
  all_goals first
    | (obtain rfl := Option.some.inj hnext; simp [Frame.stage])
    | exact absurd hnext (by simp)

/-- A fork opened is the newest stage, and the only new name. -/
theorem Known.forks (h : Known s) {len threads : ℕ} : Known (s.fork t len threads) := by
  refine ⟨fun j hj => ?_, fun u f hf j hj => Nat.lt_succ_iff_lt_or_eq.mpr ?_,
    fun j hj => (h.jobs j hj).trans (Nat.lt_succ_self _), fun q j hj => ?_⟩
  · have hne : j ≠ s.stages := Nat.ne_of_gt hj
    rw [stage_fork_of_ne hne, trace_fork_of_ne hne]
    exact h.fresh j (Nat.le_of_succ_le hj)
  · have hf : f ∈ (s.calls t (.run s.stages (s.current t) .notify :: s.stack t)).stack u := hf
    by_cases hu : u = t
    · rw [hu, stack_calls_self] at hf
      rcases List.mem_cons.mp hf with rfl | hf
      · exact .inr (Option.some.inj hj).symm
      · exact .inl (h.frames t f hf j hj)
    · rw [stack_calls_of_ne hu] at hf
      exact .inl (h.frames u f hf j hj)
  · rcases mem_opened_fork.mp hj with hj | ⟨rfl, rfl⟩
    · obtain ⟨hlt, hquery⟩ := h.opened q j hj
      rw [stage_fork_of_ne hlt.ne]
      exact ⟨hlt.trans (Nat.lt_succ_self _), hquery⟩
    · rw [stage_fork_self]
      exact ⟨Nat.lt_succ_self _, rfl⟩

/-- **Every step names only opened stages.** -/
theorem Known.step (h : Known s) (hstep : Step s s') : Known s' := by
  cases hstep with
  | forkInOrder hbody hlen hhelpers =>
    refine ⟨h.fresh, h.calls fun f hf k hk => ?_, h.jobs, h.opened⟩
    rcases List.mem_cons.mp hf with rfl | hf
    · exact absurd hk (by simp [Frame.stage])
    · exact h.frames _ f hf k hk
  | fork _ _ _ => exact h.forks
  | inOrderNext hstack _ | itemReturns hstack | spreadLoad hstack _ | waitOn hstack _
  | waitNone hstack _ | notifyLock hstack _ | wake hstack =>
    exact ⟨h.fresh, h.replace [_] hstack (by simp [Frame.stage]), h.jobs, h.opened⟩
  | inOrderEnd hstack _ | inOrderPanic _ hstack | spreadNone hstack _ | leave hstack =>
    exact ⟨h.fresh, h.replace [] hstack (by simp), h.jobs, h.opened⟩
  | start hidle hjob =>
    have hk := h.jobs _ (List.mem_of_getElem? hjob)
    refine ⟨h.fresh, h.calls fun f hf k hk' => ?_,
      fun j hj => h.jobs j (List.mem_of_mem_eraseIdx hj), h.opened⟩
    rw [List.mem_singleton.mp hf] at hk'
    exact Option.some.inj hk' ▸ hk
  | next hstack hnext =>
    exact ⟨h.fresh, h.replace _ hstack (stage_next hnext), h.jobs, h.opened⟩
  | @notifyOpened t k _ _ hstack | @notifyFinished t k _ hstack =>
    refine ⟨h.fresh, (h.notifyAll (s.stage k).query).calls fun f hf k hk => ?_, h.jobs, h.opened⟩
    rcases List.mem_cons.mp hf with rfl | hf
    · exact h.top hstack hk
    · exact h.frames _ f (by rw [hstack]; exact List.mem_cons_of_mem _ hf) k hk
  | spreadSpawn hstack hleft =>
    have hk := h.top hstack rfl
    refine ⟨h.fresh_stage hk _, h.replace [_] hstack (by simp [Frame.stage]), fun j hj => ?_,
      h.opened_update _ rfl⟩
    rcases List.mem_append.mp hj with hj | hj
    · exact h.jobs j hj
    · exact List.mem_singleton.mp hj ▸ hk
  | spreadSpent hstack _ | claimNone hstack _ =>
    exact ⟨h.fresh_stage (h.top hstack rfl) _, h.replace [] hstack (by simp), h.jobs,
      h.opened_update _ rfl⟩
  | claim hstack _ | keepFirst hstack | settle hstack =>
    exact ⟨h.fresh_update (h.top hstack rfl) _ _, h.replace [_] hstack (by simp [Frame.stage]),
      h.jobs, h.opened_update _ rfl⟩
  | itemPanics panic hstack =>
    exact ⟨h.fresh_trace (h.top hstack rfl) _, h.replace [_] hstack (by simp [Frame.stage]),
      h.jobs, h.opened⟩
  | waitLock hstack _ | waitDone hstack _ | sleep hstack =>
    exact ⟨h.fresh, h.replace [_] hstack (by simp [Frame.stage]), h.jobs,
      fun q j hj => h.opened q j (opened_hold (s := s) _ q ▸ hj)⟩
  | waitHelp hstack hfind =>
    refine ⟨h.fresh, h.calls fun f hf k hk => ?_, h.jobs,
      fun q j hj => h.opened q j (opened_hold (s := s) _ q ▸ hj)⟩
    rcases List.mem_cons.mp hf with rfl | hf
    · exact Option.some.inj hk ▸ (h.opened _ _ (List.mem_of_find?_eq_some hfind)).1
    · rcases List.mem_cons.mp hf with rfl | hf
      · exact h.top hstack hk
      · exact h.frames _ f (by rw [hstack]; exact List.mem_cons_of_mem _ hf) k hk
  | close hstack _ =>
    exact ⟨h.fresh, h.replace [_] hstack (by simp [Frame.stage]), h.jobs,
      fun q j hj => h.opened q j (mem_opened_close.mp hj).1⟩
  | take hstack =>
    exact ⟨h.fresh_update (h.top hstack rfl) _ _, h.replace [] hstack (by simp), h.jobs,
      h.opened_update _ rfl⟩

end Known

section Tallied

variable {t : τ} {frame : Frame π} {rest frames : List (Frame π)} {k : ℕ}

/-- A changed stage whose counters are as they were. -/
theorem tallies_update {s' : State τ π} (hk : tallies s' k = tallies s k)
    (hother : ∀ j, j ≠ k → s'.stage j = s.stage j ∧ s'.trace j = s.trace j) (j : ℕ) :
    tallies s' j = tallies s j := by
  by_cases hj : j = k
  · rw [hj, hk]
  · obtain ⟨hstage, htrace⟩ := hother j hj
    rw [tallies, tallies, hstage, htrace]

/-- A stage's tally, where the step changed that stage alone. -/
theorem Tallied.update (h : Tallied s) {s' : State τ π}
    (hk : WorkTally (s'.stage k).len (s'.stage k).next (s'.stage k).unfinished (s'.trace k).calls
      (s'.trace k).finished fun t => runningIn k (s'.stack t))
    (hother : ∀ j, j ≠ k → tallies s' j = tallies s j ∧
      ∀ t, runningIn j (s'.stack t) = runningIn j (s.stack t)) : Tallied s' := by
  intro j
  by_cases hj : j = k
  · exact hj ▸ hk
  · obtain ⟨heq, hrunning⟩ := hother j hj
    simp only [tallies, Prod.mk.injEq] at heq
    obtain ⟨⟨h1, h2, h3⟩, h4, h5⟩ := heq
    rw [h1, h2, h3, h4, h5, funext hrunning]
    exact h j

/-- A fresh stage is in nobody's calls. -/
theorem Tallied.runningIn_eq_nil (h : Tallied s) (hcalls : (s.trace k).calls = []) (t : τ) :
    runningIn k (s.stack t) = [] := by
  refine List.eq_nil_iff_forall_not_mem.mpr fun i hi => ?_
  have hmem := ((h k).mem_running t i).mp hi
  rw [hcalls] at hmem
  exact absurd hmem.1 (by simp)

/-- A notify moves the notifier and wakes others, none of them into or out of an item. -/
theorem Tallied.notified [DecidableEq τ] (h : Tallied s) {q : ℕ} (hstack : s.stack t = frame :: rest)
    (frame' : Frame π) (hawake : ∀ k previous, frame ≠ .run k previous (.wait .asleep))
    (hrunning : ∀ j, frame.running j = none ∧ frame'.running j = none) :
    Tallied ((s.notifyAll q).calls t (frame' :: rest)) := by
  refine h.quiet (fun _ => rfl) fun j u => ?_
  have hcalls := runningIn_calls [frame'] (woken_of_ne (q := q) hstack hawake) j (by
    rw [runningIn_cons, (hrunning j).1, (hrunning j).2]
    rfl) u
  exact hcalls.trans (runningIn_woken j _ _)

/-- **Every step keeps the tallies.** -/
theorem Tallied.step [DecidableEq τ] (h : Tallied s) (hknown : Known s) (hstep : Step s s') : Tallied s' := by
  cases hstep with
  | forkInOrder hbody hlen hhelpers =>
    exact h.quiet (fun _ => rfl) fun k => runningIn_pushed _ (by simp [Frame.running])
  | @fork t len threads hbody hhelpers hfree =>
    have hrunning (j : ℕ) (u : τ) : runningIn j ((s.fork t len threads).stack u) =
        runningIn j (s.stack u) :=
      runningIn_pushed (t := t) (.run s.stages (s.current t) .notify) (by simp [Frame.running]) u
    refine h.update (k := s.stages) ?_ fun j hj => ⟨?_, hrunning j⟩
    · rw [stage_fork_self, trace_fork_self]
      refine WorkTally.start len _ fun u => ?_
      rw [hrunning]
      exact h.runningIn_eq_nil (by rw [(hknown.fresh s.stages le_rfl).2]; rfl) u
    · rw [tallies, tallies, stage_fork_of_ne hj, trace_fork_of_ne hj]
  | inOrderNext hstack _ | spreadLoad hstack _ | waitOn hstack _ | waitNone hstack _
  | notifyLock hstack _ | wake hstack | itemReturns hstack | waitLock hstack _ | waitDone hstack _
  | sleep hstack | close hstack _ =>
    exact h.quiet (fun _ => rfl) fun k =>
      runningIn_calls [_] hstack k (by simp [Frame.running])
  | inOrderEnd hstack _ | inOrderPanic _ hstack | spreadNone hstack _ | leave hstack =>
    exact h.quiet (fun _ => rfl) fun k => runningIn_calls [] hstack k rfl
  | @start t i k hidle hjob =>
    refine h.quiet (fun _ => rfl) fun j u => ?_
    have hpushed : runningIn j ((s.calls t (.helper k (s.current t) .spread :: s.stack t)).stack u) =
        runningIn j (s.stack u) := runningIn_pushed _ (by simp [Frame.running]) u
    rwa [hidle] at hpushed
  | next hstack hnext =>
    exact h.quiet (fun _ => rfl) fun k => runningIn_calls _ hstack k (running_next hnext k)
  | @notifyOpened t k previous rest hstack =>
    exact h.notified hstack (.run k previous .spread) (by simp) fun j => by simp [Frame.running]
  | @notifyFinished t k rest hstack =>
    exact h.notified hstack (.help k .claim) (by simp) fun j => by simp [Frame.running]
  | @spreadSpawn t k _ _ hstack _ =>
    exact h.quiet (tallies_update (k := k) (by simp [tallies, State.setStage, State.calls]) fun j hj =>
        ⟨Function.update_of_ne hj .., rfl⟩) fun j =>
      runningIn_calls [_] hstack j (by simp [Frame.running])
  | @spreadSpent t k _ _ hstack _ =>
    exact h.quiet (tallies_update (k := k) (by simp [tallies, State.setStage, State.calls]) fun j hj =>
        ⟨Function.update_of_ne hj .., rfl⟩) fun j => runningIn_calls [] hstack j rfl
  | @claimNone t k _ hstack hle =>
    have hrunning := fun j => runningIn_calls [] hstack j rfl
    refine h.update (k := k) ?_ fun j hj => ⟨?_, hrunning j⟩
    · simp only [State.setStage, State.calls, Function.update_self]
      have hpass := (h k).pass hle
      rwa [← funext (hrunning k)] at hpass
    · simp only [tallies, State.setStage, State.calls, Function.update_of_ne hj]
  | @claim t k _ hstack hlt =>
    refine h.update (k := k) ?_ fun j hj => ⟨?_, fun u => ?_⟩
    · simp only [State.setStage, State.setTrace, State.calls, Function.update_self]
      refine (h k).claim t hlt ?_ fun u hu => ?_
      · rw [Function.update_self, hstack]
        simp [Frame.running]
      · rw [Function.update_of_ne hu]
    · simp only [tallies, State.setStage, State.setTrace, State.calls, Function.update_of_ne hj]
    · exact runningIn_calls [_] hstack j (by simp [Frame.running, hj.symm]) u
  | @keepFirst t k _ _ _ hstack =>
    exact h.quiet (tallies_update (k := k)
        (by simp [tallies, State.setStage, State.setTrace, State.calls]) fun j hj =>
        ⟨Function.update_of_ne hj .., Function.update_of_ne hj ..⟩) fun j =>
      runningIn_calls [_] hstack j (by simp [Frame.running])
  | @settle t k i rest hstack =>
    have hnew (j : ℕ) : (Frame.help k (if (s.stage k).unfinished - 1 = 0 then .lock else .claim) :
        Frame π).running j = none := by split <;> rfl
    refine h.update (k := k) ?_ fun j hj => ⟨?_, fun u => ?_⟩
    · simp only [State.setStage, State.setTrace, State.calls, Function.update_self]
      have hrun : runningIn k (s.stack t) = i :: runningIn k rest := by
        rw [hstack]
        simp [Frame.running]
      refine (h k).finish hrun ?_ fun u hu => ?_
      · rw [Function.update_self, runningIn_cons, hnew]
        rfl
      · rw [Function.update_of_ne hu]
    · simp only [tallies, State.setStage, State.setTrace, State.calls, Function.update_of_ne hj]
    · refine runningIn_calls [_] hstack j ?_ u
      rw [runningIn_cons, hnew]
      simp [Frame.running, hj.symm]
  | @itemPanics t k _ _ _ hstack =>
    exact h.quiet (tallies_update (k := k) (by simp [tallies, State.setTrace, State.calls]) fun j hj =>
        ⟨rfl, Function.update_of_ne hj ..⟩) fun j =>
      runningIn_calls [_] hstack j (by simp [Frame.running])
  | waitHelp hstack _ =>
    exact h.quiet (fun _ => rfl) fun k =>
      runningIn_calls [_, _] hstack k (by simp [Frame.running])
  | @take t k _ _ hstack =>
    exact h.quiet (tallies_update (k := k)
        (by simp [tallies, State.setStage, State.setTrace, State.calls, State.setCurrent]) fun j hj =>
        ⟨Function.update_of_ne hj .., Function.update_of_ne hj ..⟩) fun j =>
      runningIn_calls [] hstack j rfl

end Tallied

/-! ## One fork, one call -/

/-- How far a fork is: it may still wait, it has seen its count at zero, or it is closed. -/
inductive Phase
  | waiting | closing | taking
  deriving DecidableEq

/-- The phase a point of a run is in. -/
def RunPoint.phase : RunPoint → Phase
  | .close => .closing
  | .take => .taking
  | _ => .waiting

/-- The forks some calls are, and how far each is. -/
def forksIn (frames : List (Frame π)) : List (ℕ × Phase) :=
  frames.filterMap fun
    | .run k _ point => some (k, point.phase)
    | _ => none

@[simp] theorem forksIn_nil : forksIn ([] : List (Frame π)) = [] := rfl

@[simp] theorem forksIn_cons_run (k : ℕ) (previous : Option ℕ) (point : RunPoint)
    (fs : List (Frame π)) : forksIn (.run k previous point :: fs) = (k, point.phase) :: forksIn fs := rfl

@[simp] theorem forksIn_cons_of_none {f : Frame π} (h : f.forked = none) (fs : List (Frame π)) :
    forksIn (f :: fs) = forksIn fs := by
  cases f with
  | run k previous point => exact absurd h (by simp [Frame.forked])
  | inOrder _ _ _ | helper _ _ _ | spread _ _ | help _ _ => rfl

theorem forksIn_append (fs gs : List (Frame π)) : forksIn (fs ++ gs) = forksIn fs ++ forksIn gs :=
  List.filterMap_append

/-- A fork among some calls is one of them. -/
theorem exists_run {k : ℕ} {phase : Phase} {frames : List (Frame π)} (h : (k, phase) ∈ forksIn frames) :
    ∃ f ∈ frames, f.forked = some k ∧ f.stage = some k := by
  obtain ⟨f, hf, heq⟩ := List.mem_filterMap.mp h
  cases f with
  | run j previous point =>
    obtain ⟨rfl, -⟩ := Prod.mk.inj (Option.some.inj heq)
    exact ⟨_, hf, rfl, rfl⟩
  | inOrder _ _ _ | helper _ _ _ | spread _ _ | help _ _ => exact absurd heq (by simp)

theorem forksIn_woken (q : ℕ) (frames : List (Frame π)) :
    forksIn (s.woken q frames) = forksIn frames := by
  rcases woken_cases s q frames with h | ⟨j, previous, rest, rfl, -, h⟩
  · rw [h]
  · rw [h]
    rfl

/-- **A fork is above calls of stages opened before it.** -/
def Ordered (frames : List (Frame π)) : Prop :=
  frames.Pairwise fun above f => ∀ k, above.forked = some k → ∀ j, f.stage = some j → j < k

theorem ordered_cons_of_none {f : Frame π} {fs : List (Frame π)} (hf : f.forked = none) :
    Ordered (f :: fs) ↔ Ordered fs := by
  rw [Ordered, List.pairwise_cons]
  exact ⟨And.right, fun h => ⟨fun g _ k hk => absurd hk (by simp [hf]), h⟩⟩

/-- A call replaced by another of the same stage and fork. -/
theorem Ordered.replaced {f g : Frame π} {rest : List (Frame π)} (h : Ordered (f :: rest))
    (hfork : ∀ k, g.forked = some k → f.forked = some k) : Ordered (g :: rest) := by
  obtain ⟨htop, hrest⟩ := List.pairwise_cons.mp h
  exact List.pairwise_cons.mpr ⟨fun f' hf' k hk => htop f' hf' k (hfork k hk), hrest⟩

theorem Ordered.woken {q : ℕ} {frames : List (Frame π)} (h : Ordered frames) :
    Ordered (s.woken q frames) := by
  rcases woken_cases s q frames with heq | ⟨j, previous, rest, rfl, -, heq⟩
  · rwa [heq]
  · rw [heq]
    exact h.replaced fun k hk => hk

/-- The fork on top is not below. -/
theorem Ordered.not_mem_rest {k : ℕ} {previous : Option ℕ} {point : RunPoint} {rest : List (Frame π)}
    (h : Ordered (.run k previous point :: rest)) (phase : Phase) : (k, phase) ∉ forksIn rest := by
  intro hmem
  obtain ⟨f, hf, -, hstage⟩ := exists_run hmem
  exact absurd ((List.pairwise_cons.mp h).1 f hf k rfl k hstage) (lt_irrefl k)

/-- **A stage's fork is one call of the thread that opened it**: past its wait only at a count of zero,
and holding its stage open until it closes it. -/
structure Forked (s : State τ π) : Prop where
  mine : ∀ t k phase, (k, phase) ∈ forksIn (s.stack t) →
    (s.trace k).opener = some t ∧ (s.trace k).returned = none
  ordered : ∀ t, Ordered (s.stack t)
  waited : ∀ t k phase, (k, phase) ∈ forksIn (s.stack t) → phase ≠ .waiting →
    (s.stage k).unfinished = 0
  opened : ∀ t k phase, (k, phase) ∈ forksIn (s.stack t) → phase ≠ .taking →
    k ∈ (s.queryOf k).opened
  inside : ∀ q, ∀ k ∈ (s.query q).opened, ∃ t phase,
    (k, phase) ∈ forksIn (s.stack t) ∧ phase ≠ .taking
  returned : ∀ k, (s.trace k).returned ≠ none → (s.stage k).unfinished = 0

theorem forked_init : Forked (State.init : State τ π) :=
  ⟨fun _ _ _ h => absurd h (by simp [State.init]), fun _ => List.Pairwise.nil,
    fun _ _ _ h => absurd h (by simp [State.init]), fun _ _ _ h => absurd h (by simp [State.init]),
    fun _ _ h => absurd h (by simp [State.init]), fun _ _ => rfl⟩

/-- A step that moves no fork, and opens and closes nothing. -/
theorem Forked.quiet (h : Forked s) (hforks : ∀ t, forksIn (s'.stack t) = forksIn (s.stack t))
    (hordered : ∀ t, Ordered (s'.stack t))
    (htrace : ∀ k, (s'.trace k).opener = (s.trace k).opener ∧
      (s'.trace k).returned = (s.trace k).returned)
    (hunfinished : ∀ k, (s'.stage k).unfinished ≤ (s.stage k).unfinished)
    (hquery : ∀ k, (s'.stage k).query = (s.stage k).query)
    (hopened : ∀ q, (s'.query q).opened = (s.query q).opened) : Forked s' := by
  refine ⟨fun t k phase hk => ?_, hordered, fun t k phase hk hphase => ?_, fun t k phase hk hphase => ?_,
    fun q k hk => ?_, fun k hk => ?_⟩
  · rw [(htrace k).1, (htrace k).2]
    exact h.mine t k phase (hforks t ▸ hk)
  · have hzero := h.waited t k phase (hforks t ▸ hk) hphase
    exact Nat.le_zero.mp (hzero ▸ hunfinished k)
  · rw [State.queryOf, hquery, hopened]
    exact h.opened t k phase (hforks t ▸ hk) hphase
  · obtain ⟨t, phase, hmem, hphase⟩ := h.inside q k (hopened q ▸ hk)
    exact ⟨t, phase, by rw [hforks]; exact hmem, hphase⟩
  · have hzero := h.returned k ((htrace k).2 ▸ hk)
    exact Nat.le_zero.mp (hzero ▸ hunfinished k)

section Forked

variable {t : τ} {frame : Frame π} {rest frames : List (Frame π)} {k : ℕ}

theorem Forked.top (h : Forked s) (hstack : s.stack t = frame :: rest) : Ordered (frame :: rest) :=
  hstack ▸ h.ordered t

theorem Forked.below (h : Forked s) (hstack : s.stack t = frame :: rest) : Ordered rest :=
  (List.pairwise_cons.mp (h.top hstack)).2

/-- A call that only calls or returns stays the fork it is. -/
theorem forks_next (hnext : frame.next = some frames) : forksIn frames = forksIn [frame] := by
  unfold Frame.next at hnext
  split at hnext
  all_goals first
    | (obtain rfl := Option.some.inj hnext; rfl)
    | exact absurd hnext (by simp)

theorem ordered_next (hnext : frame.next = some frames) (h : Ordered (frame :: rest)) :
    Ordered (frames ++ rest) := by
  unfold Frame.next at hnext
  split at hnext
  all_goals first
    | obtain rfl := Option.some.inj hnext
    | exact absurd hnext (by simp)
  case h_6 => exact (List.pairwise_cons.mp h).2
  all_goals
    rw [List.cons_append, ordered_cons_of_none rfl]
    exact h.replaced (by simp [Frame.forked])

/-- A changed stage keeps its query, and counts no more than it did. -/
theorem setStage_query (stage : Stage π) (hquery : stage.query = (s.stage k).query) (j : ℕ) :
    (Function.update s.stage k stage j).query = (s.stage j).query := by
  by_cases hj : j = k
  · rw [hj, Function.update_self, hquery]
  · rw [Function.update_of_ne hj]

theorem setStage_unfinished (stage : Stage π) (hle : stage.unfinished ≤ (s.stage k).unfinished) (j : ℕ) :
    (Function.update s.stage k stage j).unfinished ≤ (s.stage j).unfinished := by
  by_cases hj : j = k
  · rw [hj, Function.update_self]
    exact hle
  · rw [Function.update_of_ne hj]

theorem setTrace_fork (trace : Trace τ π) (hopener : trace.opener = (s.trace k).opener)
    (hreturned : trace.returned = (s.trace k).returned) (j : ℕ) :
    (Function.update s.trace k trace j).opener = (s.trace j).opener ∧
      (Function.update s.trace k trace j).returned = (s.trace j).returned := by
  by_cases hj : j = k
  · rw [hj, Function.update_self]
    exact ⟨hopener, hreturned⟩
  · rw [Function.update_of_ne hj]
    exact ⟨rfl, rfl⟩

/-- A stage's fork is nowhere else. -/
theorem Forked.here {previous : Option ℕ} {point : RunPoint} {u : τ} {phase : Phase} (h : Forked s)
    (hstack : s.stack t = .run k previous point :: rest) (hmem : (k, phase) ∈ forksIn (s.stack u)) :
    u = t ∧ phase = point.phase := by
  have hown : (k, point.phase) ∈ forksIn (s.stack t) := by
    rw [hstack, forksIn_cons_run]
    exact List.mem_cons_self
  obtain rfl : u = t := Option.some.inj
    ((h.mine u k phase hmem).1.symm.trans (h.mine t k point.phase hown).1)
  refine ⟨rfl, ?_⟩
  rw [hstack, forksIn_cons_run] at hmem
  rcases List.mem_cons.mp hmem with heq | hrest
  · exact congrArg Prod.snd heq
  · exact absurd hrest ((h.top hstack).not_mem_rest phase)

variable [DecidableEq τ]

theorem forksIn_pushed (frame : Frame π) (hframe : frame.forked = none) (u : τ) :
    forksIn ((s.calls t (frame :: s.stack t)).stack u) = forksIn (s.stack u) := by
  by_cases hu : u = t
  · rw [hu, stack_calls_self, forksIn_cons_of_none hframe]
  · rw [stack_calls_of_ne hu]

theorem forksIn_calls (frames : List (Frame π)) (hstack : s.stack t = frame :: rest)
    (hframes : forksIn frames = forksIn [frame]) (u : τ) :
    forksIn ((s.calls t (frames ++ rest)).stack u) = forksIn (s.stack u) := by
  by_cases hu : u = t
  · rw [hu, stack_calls_self, forksIn_append, hframes, ← forksIn_append, hstack, List.singleton_append]
  · rw [stack_calls_of_ne hu]

/-- The calls of a thread whose own are ordered. -/
theorem Forked.ordered_calls (h : Forked s) {frames : List (Frame π)} (hframes : Ordered frames) (u : τ) :
    Ordered ((s.calls t frames).stack u) := by
  by_cases hu : u = t
  · rw [hu, stack_calls_self]
    exact hframes
  · rw [stack_calls_of_ne hu]
    exact h.ordered u

/-- The forks once the one on top has moved: it, and those of the other stages. -/
theorem Forked.mem_moved {previous : Option ℕ} {point : RunPoint} (h : Forked s)
    (hstack : s.stack t = .run k previous point :: rest) (frames : List (Frame π)) (u : τ) (j : ℕ)
    (phase : Phase) :
    (j, phase) ∈ forksIn ((s.calls t (frames ++ rest)).stack u) ↔
      (u = t ∧ (j, phase) ∈ forksIn frames) ∨ (j ≠ k ∧ (j, phase) ∈ forksIn (s.stack u)) := by
  by_cases hu : u = t
  · rw [hu, stack_calls_self, forksIn_append, List.mem_append, hstack, forksIn_cons_run,
      List.mem_cons, Prod.mk.injEq]
    constructor
    · rintro (hmem | hmem)
      · exact .inl ⟨rfl, hmem⟩
      · refine .inr ⟨?_, .inr hmem⟩
        rintro rfl
        exact (h.top hstack).not_mem_rest phase hmem
    · rintro (⟨-, hmem⟩ | ⟨hne, ⟨rfl, -⟩ | hmem⟩)
      · exact .inl hmem
      · exact absurd rfl hne
      · exact .inr hmem
  · rw [stack_calls_of_ne hu]
    constructor
    · refine fun hmem => .inr ⟨?_, hmem⟩
      rintro rfl
      exact hu (h.here hstack hmem).1
    · rintro (⟨heq, -⟩ | ⟨-, hmem⟩)
      · exact absurd heq hu
      · exact hmem

/-- A notify moves the notifier and wakes others, no fork further than its wait. -/
theorem Forked.notified (h : Forked s) {q : ℕ} (hstack : s.stack t = frame :: rest)
    (frame' : Frame π) (hawake : ∀ k previous, frame ≠ .run k previous (.wait .asleep))
    (hforks : forksIn [frame'] = forksIn [frame])
    (hfork : ∀ k, frame'.forked = some k → frame.forked = some k) :
    Forked ((s.notifyAll q).calls t (frame' :: rest)) := by
  have hwoken := woken_of_ne (q := q) hstack hawake
  refine h.quiet (fun u => ?_) (fun u => ?_) (fun _ => ⟨rfl, rfl⟩) (fun _ => le_rfl) (fun _ => rfl)
    fun _ => rfl
  · exact (forksIn_calls [frame'] hwoken hforks u).trans (forksIn_woken q _)
  · by_cases hu : u = t
    · rw [hu, stack_calls_self]
      exact (h.top hstack).replaced hfork
    · rw [stack_calls_of_ne hu]
      exact (h.ordered u).woken

/-- **A fork opened** is its thread's newest, and its query's. -/
theorem Forked.forks (h : Forked s) (hknown : Known s) {len threads : ℕ} : Forked (s.fork t len threads) := by
  have hold {u : τ} {j : ℕ} {phase : Phase} (hmem : (j, phase) ∈ forksIn (s.stack u)) :
      j < s.stages := by
    obtain ⟨f, hf, -, hstage⟩ := exists_run hmem
    exact hknown.frames u f hf j hstage
  have hmem {u : τ} {j : ℕ} {phase : Phase}
      (hj : (j, phase) ∈ forksIn ((s.fork t len threads).stack u)) :
      (u = t ∧ j = s.stages ∧ phase = .waiting) ∨ (j ≠ s.stages ∧ (j, phase) ∈ forksIn (s.stack u)) := by
    have hj : (j, phase) ∈ forksIn ((s.calls t
        (.run s.stages (s.current t) .notify :: s.stack t)).stack u) := hj
    by_cases hu : u = t
    · rw [hu, stack_calls_self, forksIn_cons_run] at hj
      rcases List.mem_cons.mp hj with heq | hj
      · exact .inl ⟨hu, congrArg Prod.fst heq, congrArg Prod.snd heq⟩
      · exact .inr ⟨(hold hj).ne, hu ▸ hj⟩
    · rw [stack_calls_of_ne hu] at hj
      exact .inr ⟨(hold hj).ne, hj⟩
  have hkept {u : τ} {j : ℕ} {phase : Phase} (hj : (j, phase) ∈ forksIn (s.stack u)) :
      (j, phase) ∈ forksIn ((s.fork t len threads).stack u) := by
    change (j, phase) ∈ forksIn ((s.calls t
      (.run s.stages (s.current t) .notify :: s.stack t)).stack u)
    by_cases hu : u = t
    · rw [hu, stack_calls_self, forksIn_cons_run]
      exact List.mem_cons_of_mem _ (hu ▸ hj)
    · rwa [stack_calls_of_ne hu]
  refine ⟨fun u j phase hj => ?_, h.ordered_calls (List.pairwise_cons.mpr ⟨?_, h.ordered t⟩),
    fun u j phase hj hphase => ?_, fun u j phase hj hphase => ?_, fun q j hj => ?_, fun j hj => ?_⟩
  · rcases hmem hj with ⟨rfl, rfl, -⟩ | ⟨hne, hj⟩
    · rw [trace_fork_self]
      exact ⟨rfl, rfl⟩
    · rw [trace_fork_of_ne hne]
      exact h.mine u j phase hj
  · rintro f hf _ ⟨⟩ j hj
    exact hknown.frames t f hf j hj
  · rcases hmem hj with ⟨-, -, rfl⟩ | ⟨hne, hj⟩
    · exact absurd rfl hphase
    · rw [stage_fork_of_ne hne]
      exact h.waited u j phase hj hphase
  · refine mem_opened_fork.mpr ?_
    rcases hmem hj with ⟨rfl, rfl, -⟩ | ⟨hne, hj⟩
    · exact .inr ⟨rfl, by rw [stage_fork_self]⟩
    · rw [stage_fork_of_ne hne]
      exact .inl (h.opened u j phase hj hphase)
  · rcases mem_opened_fork.mp hj with hj | ⟨rfl, -⟩
    · obtain ⟨u, phase, hmem, hphase⟩ := h.inside q j hj
      exact ⟨u, phase, hkept hmem, hphase⟩
    · refine ⟨t, .waiting, ?_, by simp⟩
      change _ ∈ forksIn ((s.calls t (.run s.stages (s.current t) .notify :: s.stack t)).stack t)
      rw [stack_calls_self]
      exact List.mem_cons_self
  · by_cases hne : j = s.stages
    · rw [hne, trace_fork_self] at hj
      exact absurd rfl hj
    · rw [trace_fork_of_ne hne] at hj
      rw [stage_fork_of_ne hne]
      exact h.returned j hj

/-- A fork whose items are all finished closes next. -/
theorem Forked.waitDone (h : Forked s) {previous : Option ℕ}
    (hstack : s.stack t = .run k previous (.wait .check) :: rest) (hzero : (s.stage k).unfinished = 0) :
    Forked ((s.hold k none).calls t (.run k previous .close :: rest)) := by
  have hown : (k, Phase.waiting) ∈ forksIn (s.stack t) := by
    rw [hstack]
    exact List.mem_cons_self
  have hmoved {u : τ} {j : ℕ} {phase : Phase} :=
    h.mem_moved hstack [.run k previous .close] u j phase
  simp only [forksIn_cons_run, forksIn_nil, List.mem_singleton, Prod.mk.injEq] at hmoved
  refine ⟨fun u j phase hj => ?_, h.ordered_calls ((h.top hstack).replaced (by simp [Frame.forked])),
    fun u j phase hj hphase => ?_, fun u j phase hj hphase => ?_, fun q j hj => ?_, h.returned⟩
  · rcases hmoved.mp hj with ⟨rfl, rfl, -⟩ | ⟨-, hmem⟩
    · exact h.mine u j _ hown
    · exact h.mine u j phase hmem
  · rcases hmoved.mp hj with ⟨-, rfl, -⟩ | ⟨-, hmem⟩
    · exact hzero
    · exact h.waited u j phase hmem hphase
  · refine (congrArg (j ∈ ·) (opened_hold (s := s) none (s.stage j).query)).mpr ?_
    rcases hmoved.mp hj with ⟨rfl, rfl, -⟩ | ⟨-, hmem⟩
    · exact h.opened u j _ hown (by simp)
    · exact h.opened u j phase hmem hphase
  · obtain ⟨u, phase, hmem, hphase⟩ := h.inside q j (opened_hold (s := s) none q ▸ hj)
    by_cases hjk : j = k
    · exact ⟨t, .closing, hmoved.mpr (.inl ⟨rfl, hjk, rfl⟩), by simp⟩
    · exact ⟨u, phase, hmoved.mpr (.inr ⟨hjk, hmem⟩), hphase⟩

/-- **A fork closed** is its query's no more. -/
theorem Forked.close (h : Forked s) (hknown : Known s) {previous : Option ℕ}
    (hstack : s.stack t = .run k previous .close :: rest) :
    Forked ((s.setQuery (s.stage k).query
      { s.queryOf k with opened := (s.queryOf k).opened.filter fun j => j != k }).calls t
        (.run k previous .take :: rest)) := by
  have hown : (k, Phase.closing) ∈ forksIn (s.stack t) := by
    rw [hstack]
    exact List.mem_cons_self
  have hmoved {u : τ} {j : ℕ} {phase : Phase} :=
    h.mem_moved hstack [.run k previous .take] u j phase
  simp only [forksIn_cons_run, forksIn_nil, List.mem_singleton, Prod.mk.injEq] at hmoved
  refine ⟨fun u j phase hj => ?_, h.ordered_calls ((h.top hstack).replaced (by simp [Frame.forked])),
    fun u j phase hj hphase => ?_, fun u j phase hj hphase => ?_, fun q j hj => ?_, h.returned⟩
  · rcases hmoved.mp hj with ⟨rfl, rfl, -⟩ | ⟨-, hmem⟩
    · exact h.mine u j _ hown
    · exact h.mine u j phase hmem
  · rcases hmoved.mp hj with ⟨-, rfl, -⟩ | ⟨-, hmem⟩
    · exact h.waited t j _ hown (by simp)
    · exact h.waited u j phase hmem hphase
  · rcases hmoved.mp hj with ⟨-, -, rfl⟩ | ⟨hjk, hmem⟩
    · exact absurd rfl hphase
    · exact mem_opened_close.mpr ⟨h.opened u j phase hmem hphase, fun _ => hjk⟩
  · obtain ⟨hopen, hne⟩ := mem_opened_close.mp hj
    have hjk : j ≠ k := by
      rintro rfl
      exact hne (hknown.opened q j hopen).2.symm rfl
    obtain ⟨u, phase, hmem, hphase⟩ := h.inside q j hopen
    exact ⟨u, phase, hmoved.mpr (.inr ⟨hjk, hmem⟩), hphase⟩

/-- A fork taken returns what its stage kept. -/
theorem Forked.take (h : Forked s) {previous : Option ℕ} (hstack : s.stack t = .run k previous .take :: rest) :
    Forked ((((s.setStage k { s.stage k with panic := none }).setTrace k
      { s.trace k with returned := some (s.stage k).panic }).calls t rest).setCurrent t previous) := by
  have hown : (k, Phase.taking) ∈ forksIn (s.stack t) := by
    rw [hstack]
    exact List.mem_cons_self
  have hmoved {u : τ} {j : ℕ} {phase : Phase} :=
    h.mem_moved hstack [] u j phase
  simp only [forksIn_nil, List.not_mem_nil, and_false, false_or, List.nil_append] at hmoved
  refine ⟨fun u j phase hj => ?_, h.ordered_calls (h.below hstack),
    fun u j phase hj hphase => ?_, fun u j phase hj hphase => ?_, fun q j hj => ?_, fun j hj => ?_⟩
  · obtain ⟨hjk, hmem⟩ := hmoved.mp hj
    change (Function.update s.trace k _ j).opener = _ ∧ (Function.update s.trace k _ j).returned = _
    rw [Function.update_of_ne hjk]
    exact h.mine u j phase hmem
  · obtain ⟨hjk, hmem⟩ := hmoved.mp hj
    change (Function.update s.stage k _ j).unfinished = 0
    rw [Function.update_of_ne hjk]
    exact h.waited u j phase hmem hphase
  · obtain ⟨hjk, hmem⟩ := hmoved.mp hj
    change j ∈ (s.query (Function.update s.stage k _ j).query).opened
    rw [Function.update_of_ne hjk]
    exact h.opened u j phase hmem hphase
  · obtain ⟨u, phase, hmem, hphase⟩ := h.inside q j hj
    refine ⟨u, phase, hmoved.mpr ⟨?_, hmem⟩, hphase⟩
    rintro rfl
    exact hphase (h.here hstack hmem).2
  · change (Function.update s.stage k _ j).unfinished = 0
    by_cases hjk : j = k
    · rw [hjk, Function.update_self]
      exact h.waited t k _ hown (by simp)
    · rw [Function.update_of_ne hjk]
      have hj : (Function.update s.trace k _ j).returned ≠ none := hj
      rw [Function.update_of_ne hjk] at hj
      exact h.returned j hj

/-- **Every step keeps the forks.** -/
theorem Forked.step (h : Forked s) (hknown : Known s) (hstep : Step s s') :
    Forked s' := by
  cases hstep with
  | forkInOrder hbody hlen hhelpers =>
    exact h.quiet (forksIn_pushed _ rfl) (h.ordered_calls ((ordered_cons_of_none rfl).mpr (h.ordered _)))
      (fun _ => ⟨rfl, rfl⟩) (fun _ => le_rfl) (fun _ => rfl) fun _ => rfl
  | fork _ _ _ => exact h.forks hknown
  | inOrderNext hstack _ | spreadLoad hstack _ | waitOn hstack _ | waitNone hstack _
  | notifyLock hstack _ | wake hstack | itemReturns hstack =>
    exact h.quiet (forksIn_calls [_] hstack rfl)
      (h.ordered_calls ((h.top hstack).replaced (by simp [Frame.forked]))) (fun _ => ⟨rfl, rfl⟩)
      (fun _ => le_rfl) (fun _ => rfl) fun _ => rfl
  | waitLock hstack _ | sleep hstack =>
    exact h.quiet (forksIn_calls [_] hstack rfl)
      (h.ordered_calls ((h.top hstack).replaced (by simp [Frame.forked]))) (fun _ => ⟨rfl, rfl⟩)
      (fun _ => le_rfl) (fun _ => rfl) (opened_hold _)
  | inOrderEnd hstack _ | inOrderPanic _ hstack | spreadNone hstack _ | leave hstack =>
    exact h.quiet (forksIn_calls [] hstack rfl) (h.ordered_calls (h.below hstack)) (fun _ => ⟨rfl, rfl⟩)
      (fun _ => le_rfl) (fun _ => rfl) fun _ => rfl
  | @start t i k hidle hjob =>
    refine h.quiet (fun u => ?_) (h.ordered_calls (List.pairwise_singleton _ _)) (fun _ => ⟨rfl, rfl⟩)
      (fun _ => le_rfl) (fun _ => rfl) fun _ => rfl
    have hpushed : forksIn ((s.calls t (.helper k (s.current t) .spread :: s.stack t)).stack u) =
        forksIn (s.stack u) := forksIn_pushed _ rfl u
    rwa [hidle] at hpushed
  | next hstack hnext =>
    exact h.quiet (forksIn_calls _ hstack (forks_next hnext))
      (h.ordered_calls (ordered_next hnext (h.top hstack))) (fun _ => ⟨rfl, rfl⟩) (fun _ => le_rfl)
      (fun _ => rfl) fun _ => rfl
  | @notifyOpened t k previous rest hstack =>
    exact h.notified hstack (.run k previous .spread) (by simp) rfl (by simp [Frame.forked])
  | @notifyFinished t k rest hstack =>
    exact h.notified hstack (.help k .claim) (by simp) rfl (by simp [Frame.forked])
  | @spreadSpawn t k _ _ hstack _ =>
    exact h.quiet (forksIn_calls [_] hstack rfl)
      (h.ordered_calls ((h.top hstack).replaced (by simp [Frame.forked]))) (fun _ => ⟨rfl, rfl⟩)
      (setStage_unfinished _ le_rfl) (setStage_query _ rfl) fun _ => rfl
  | @spreadSpent t k _ _ hstack _ | @claimNone t k _ hstack _ =>
    exact h.quiet (forksIn_calls [] hstack rfl) (h.ordered_calls (h.below hstack)) (fun _ => ⟨rfl, rfl⟩)
      (setStage_unfinished _ le_rfl) (setStage_query _ rfl) fun _ => rfl
  | @claim t k _ hstack hlt | @keepFirst t k _ _ _ hstack =>
    exact h.quiet (forksIn_calls [_] hstack rfl)
      (h.ordered_calls ((h.top hstack).replaced (by simp [Frame.forked])))
      (setTrace_fork _ rfl rfl) (setStage_unfinished _ le_rfl) (setStage_query _ rfl) fun _ => rfl
  | @settle t k i rest hstack =>
    exact h.quiet (forksIn_calls [_] hstack rfl)
      (h.ordered_calls ((h.top hstack).replaced (by simp [Frame.forked])))
      (setTrace_fork _ rfl rfl) (setStage_unfinished _ (Nat.sub_le _ _)) (setStage_query _ rfl)
      fun _ => rfl
  | @itemPanics t k _ _ _ hstack =>
    exact h.quiet (forksIn_calls [_] hstack rfl)
      (h.ordered_calls ((h.top hstack).replaced (by simp [Frame.forked])))
      (setTrace_fork _ rfl rfl) (fun _ => le_rfl) (fun _ => rfl) fun _ => rfl
  | @waitHelp t k j previous rest hstack _ =>
    exact h.quiet (forksIn_calls [.help j .claim, .run k previous (.wait .lock)] hstack rfl)
      (h.ordered_calls ((ordered_cons_of_none rfl).mpr
        ((h.top hstack).replaced (by simp [Frame.forked])))) (fun _ => ⟨rfl, rfl⟩)
      (fun _ => le_rfl) (fun _ => rfl) (opened_hold _)
  | waitDone hstack hzero => exact h.waitDone hstack hzero
  | close hstack _ => exact h.close hknown hstack
  | take hstack => exact h.take hstack

end Forked

/-! ## The first panic -/

/-- Whether a call holds a panic of a stage's item that it has not handed over yet. -/
def Frame.keeping (k : ℕ) : Frame π → Bool
  | .help j (.keepFirst _ _) => j == k
  | _ => false

/-- Whether a frame of some keeps the first panic of a stage. -/
def keepingIn (k : ℕ) (frames : List (Frame π)) : Bool := frames.any (Frame.keeping k)

theorem keepingIn_woken (k q : ℕ) (frames : List (Frame π)) :
    keepingIn k (s.woken q frames) = keepingIn k frames := by
  rcases woken_cases s q frames with h | ⟨j, previous, rest, rfl, -, h⟩
  · rw [h]
  · rw [h]
    rfl

/-- A call that holds a panic is in its item. -/
theorem exists_running_of_keeping {k : ℕ} {frames : List (Frame π)} (h : keepingIn k frames = true) :
    ∃ i, i ∈ runningIn k frames := by
  obtain ⟨f, hf, hkeep⟩ := List.any_eq_true.mp h
  unfold Frame.keeping at hkeep
  split at hkeep
  · next j i panic => exact ⟨i, mem_runningIn.mpr ⟨_, hf, if_pos (beq_iff_eq.mp hkeep)⟩⟩
  · exact absurd hkeep (by simp)

/-- **A stage keeps the first panic handed over, and hands it to its fork.** -/
structure Panicked (s : State τ π) : Prop where
  first : ∀ k, (s.trace k).returned = none → (s.stage k).panic = (s.trace k).kept.head?
  kept : ∀ k, (s.trace k).kept ≠ [] → (s.trace k).panicked ≠ []
  panicked : ∀ k, (s.trace k).panicked ≠ [] →
    (s.trace k).kept ≠ [] ∨ ∃ t, keepingIn k (s.stack t) = true
  keeping : ∀ k t, keepingIn k (s.stack t) = true → (s.trace k).panicked ≠ []
  returned : ∀ k raised, (s.trace k).returned = some raised → raised = (s.trace k).kept.head?

theorem panicked_init : Panicked (State.init : State τ π) :=
  ⟨fun _ _ => rfl, fun _ h => absurd rfl h, fun _ h => absurd rfl h,
    fun _ _ h => absurd h (by simp [State.init, keepingIn]), fun _ _ h => absurd h (by simp [State.init, Trace.none])⟩

/-- What a stage and its trace say of panics. -/
def panics (s : State τ π) (k : ℕ) : Option π × (List π × List ℕ × Option (Option π)) :=
  ((s.stage k).panic, ((s.trace k).kept, (s.trace k).panicked, (s.trace k).returned))

/-- A step that neither raises a panic nor hands one over. -/
theorem Panicked.quiet (h : Panicked s) (hpanics : ∀ k, panics s' k = panics s k)
    (hkeeping : ∀ k t, keepingIn k (s'.stack t) = keepingIn k (s.stack t)) : Panicked s' := by
  have hk (k : ℕ) := hpanics k
  simp only [panics, Prod.mk.injEq] at hk
  refine ⟨fun k => ?_, fun k => ?_, fun k => ?_, fun k t => ?_, fun k => ?_⟩
  · rw [(hk k).1, (hk k).2.1, (hk k).2.2.2]
    exact h.first k
  · rw [(hk k).2.1, (hk k).2.2.1]
    exact h.kept k
  · simp only [(hk k).2.1, (hk k).2.2.1, hkeeping]
    exact h.panicked k
  · rw [hkeeping, (hk k).2.2.1]
    exact h.keeping k t
  · rw [(hk k).2.1, (hk k).2.2.2]
    exact h.returned k

section Panicked

variable {t : τ} {frame : Frame π} {rest frames : List (Frame π)} {k : ℕ}

theorem keeping_next (hnext : frame.next = some frames) (k : ℕ) :
    keepingIn k frames = keepingIn k [frame] := by
  unfold Frame.next at hnext
  split at hnext
  all_goals first
    | (obtain rfl := Option.some.inj hnext; rfl)
    | exact absurd hnext (by simp)

theorem panics_update {s' : State τ π} (hk : panics s' k = panics s k)
    (hother : ∀ j, j ≠ k → s'.stage j = s.stage j ∧ s'.trace j = s.trace j) (j : ℕ) :
    panics s' j = panics s j := by
  by_cases hj : j = k
  · rw [hj, hk]
  · obtain ⟨hstage, htrace⟩ := hother j hj
    rw [panics, panics, hstage, htrace]

variable [DecidableEq τ]

theorem keepingIn_calls (frames : List (Frame π)) (hstack : s.stack t = frame :: rest) (k : ℕ)
    (hframes : keepingIn k frames = keepingIn k [frame]) (u : τ) :
    keepingIn k ((s.calls t (frames ++ rest)).stack u) = keepingIn k (s.stack u) := by
  by_cases hu : u = t
  · rw [hu, stack_calls_self, hstack, ← List.singleton_append, keepingIn, List.any_append, keepingIn,
      List.any_append]
    exact congrArg (· || _) hframes
  · rw [stack_calls_of_ne hu]

theorem keepingIn_pushed (frame : Frame π) (hframe : frame.keeping k = false) (u : τ) :
    keepingIn k ((s.calls t (frame :: s.stack t)).stack u) = keepingIn k (s.stack u) := by
  by_cases hu : u = t
  · rw [hu, stack_calls_self, keepingIn, List.any_cons, hframe, Bool.false_or, keepingIn]
  · rw [stack_calls_of_ne hu]

theorem Panicked.notified (h : Panicked s) {q : ℕ} (hstack : s.stack t = frame :: rest)
    (frame' : Frame π) (hawake : ∀ k previous, frame ≠ .run k previous (.wait .asleep))
    (hkeeping : ∀ j, keepingIn j [frame'] = keepingIn j [frame]) :
    Panicked ((s.notifyAll q).calls t (frame' :: rest)) :=
  h.quiet (fun _ => rfl) fun j u =>
    (keepingIn_calls [frame'] (woken_of_ne (q := q) hstack hawake) j (hkeeping j) u).trans
      (keepingIn_woken j q _)

/-- An item panics, and its panic is yet to be handed over. -/
theorem Panicked.raised (h : Panicked s) {i : ℕ} {panic : π}
    (hstack : s.stack t = .help k (.item i) :: rest) :
    Panicked ((s.setTrace k { s.trace k with panicked := (s.trace k).panicked ++ [i] }).calls t
      (.help k (.keepFirst i panic) :: rest)) := by
  have hkept (j : ℕ) : (Function.update s.trace k
      { s.trace k with panicked := (s.trace k).panicked ++ [i] } j).kept = (s.trace j).kept ∧
      (Function.update s.trace k
        { s.trace k with panicked := (s.trace k).panicked ++ [i] } j).returned = (s.trace j).returned := by
    by_cases hj : j = k
    · rw [hj, Function.update_self]
      exact ⟨rfl, rfl⟩
    · rw [Function.update_of_ne hj]
      exact ⟨rfl, rfl⟩
  have hpanicked : (Function.update s.trace k
      { s.trace k with panicked := (s.trace k).panicked ++ [i] } k).panicked ≠ [] := by
    rw [Function.update_self]
    simp
  have hother {j : ℕ} (hj : j ≠ k) (u : τ) :
      keepingIn j ((s.calls t (.help k (.keepFirst i panic) :: rest)).stack u) =
        keepingIn j (s.stack u) :=
    keepingIn_calls [_] hstack j (by simp [keepingIn, Frame.keeping, hj.symm]) u
  refine ⟨fun j hj => ?_, fun j hj => ?_, fun j hj => ?_, fun j u hj => ?_, fun j raised hj => ?_⟩
  · change (s.stage j).panic = (Function.update s.trace k _ j).kept.head?
    rw [(hkept j).1]
    exact h.first j ((hkept j).2 ▸ hj)
  · by_cases hjk : j = k
    · exact hjk ▸ hpanicked
    · change (Function.update s.trace k _ j).panicked ≠ []
      rw [Function.update_of_ne hjk]
      exact h.kept j ((hkept j).1 ▸ hj)
  · by_cases hjk : j = k
    · refine .inr ⟨t, ?_⟩
      change keepingIn j ((s.calls t _).stack t) = true
      rw [stack_calls_self, hjk]
      simp [keepingIn, Frame.keeping]
    · have hj : (Function.update s.trace k _ j).panicked ≠ [] := hj
      rw [Function.update_of_ne hjk] at hj
      refine (h.panicked j hj).imp (fun hne => ?_) fun ⟨u, hu⟩ => ⟨u, (hother hjk u).trans hu⟩
      change (Function.update s.trace k _ j).kept ≠ []
      rwa [(hkept j).1]
  · by_cases hjk : j = k
    · exact hjk ▸ hpanicked
    · change (Function.update s.trace k _ j).panicked ≠ []
      rw [Function.update_of_ne hjk]
      exact h.keeping j u ((hother hjk u).symm.trans hj)
  · change raised = (Function.update s.trace k _ j).kept.head?
    rw [(hkept j).1]
    exact h.returned j raised ((hkept j).2 ▸ hj)

/-- A panic is handed over: the first one is kept. -/
theorem Panicked.handed (h : Panicked s) {i : ℕ} {panic : π}
    (hstack : s.stack t = .help k (.keepFirst i panic) :: rest) (hopen : (s.trace k).returned = none) :
    Panicked (((s.setStage k { s.stage k with panic := (s.stage k).panic.or (some panic) }).setTrace k
      { s.trace k with kept := (s.trace k).kept ++ [panic] }).calls t
        (.help k (.settle i) :: rest)) := by
  have hraised : (s.trace k).panicked ≠ [] := by
    refine h.keeping k t ?_
    rw [hstack]
    simp [keepingIn, Frame.keeping]
  have hother {j : ℕ} (hj : j ≠ k) (u : τ) :
      keepingIn j ((s.calls t (.help k (.settle i) :: rest)).stack u) = keepingIn j (s.stack u) :=
    keepingIn_calls [_] hstack j (by simp [keepingIn, Frame.keeping, hj.symm]) u
  -- what is said of another stage is said of it as it was
  have hstage {j : ℕ} (hj : j ≠ k) (stage : Stage π) : Function.update s.stage k stage j = s.stage j :=
    Function.update_of_ne hj ..
  have htrace {j : ℕ} (hj : j ≠ k) (trace : Trace τ π) :
      Function.update s.trace k trace j = s.trace j := Function.update_of_ne hj ..
  simp only [State.setStage, State.setTrace, State.calls]
  refine ⟨fun j hj => ?_, fun j hj => ?_, fun j hj => ?_, fun j u hj => ?_, fun j raised hj => ?_⟩
  · by_cases hjk : j = k
    · simp only [hjk, Function.update_self]
      rw [h.first k hopen]
      cases (s.trace k).kept <;> rfl
    · simp only [hstage hjk, htrace hjk] at hj ⊢
      exact h.first j hj
  · by_cases hjk : j = k
    · simp only [hjk, Function.update_self]
      exact hraised
    · simp only [htrace hjk] at hj ⊢
      exact h.kept j hj
  · by_cases hjk : j = k
    · simp only [hjk, Function.update_self]
      exact .inl (by simp)
    · simp only [htrace hjk] at hj ⊢
      exact (h.panicked j hj).imp_right fun ⟨u, hu⟩ => ⟨u, (hother hjk u).trans hu⟩
  · by_cases hjk : j = k
    · simp only [hjk, Function.update_self]
      exact hraised
    · simp only [htrace hjk]
      exact h.keeping j u ((hother hjk u).symm.trans hj)
  · by_cases hjk : j = k
    · simp only [hjk, Function.update_self, hopen] at hj
      exact absurd hj (by simp)
    · simp only [htrace hjk] at hj ⊢
      exact h.returned j raised hj

/-- A fork ends with the panic its stage kept. -/
theorem Panicked.ended (h : Panicked s) {previous : Option ℕ}
    (hstack : s.stack t = .run k previous .take :: rest) (hopen : (s.trace k).returned = none) :
    Panicked ((((s.setStage k { s.stage k with panic := none }).setTrace k
      { s.trace k with returned := some (s.stage k).panic }).calls t rest).setCurrent t previous) := by
  have hkeeping (j : ℕ) (u : τ) : keepingIn j ((s.calls t rest).stack u) = keepingIn j (s.stack u) :=
    keepingIn_calls [] hstack j rfl u
  have hstage {j : ℕ} (hj : j ≠ k) (stage : Stage π) : Function.update s.stage k stage j = s.stage j :=
    Function.update_of_ne hj ..
  have htrace {j : ℕ} (hj : j ≠ k) (trace : Trace τ π) :
      Function.update s.trace k trace j = s.trace j := Function.update_of_ne hj ..
  simp only [State.setStage, State.setTrace, State.calls, State.setCurrent]
  refine ⟨fun j hj => ?_, fun j hj => ?_, fun j hj => ?_, fun j u hj => ?_, fun j raised hj => ?_⟩
  · by_cases hjk : j = k
    · simp only [hjk, Function.update_self] at hj
      exact absurd hj (by simp)
    · simp only [hstage hjk, htrace hjk] at hj ⊢
      exact h.first j hj
  · by_cases hjk : j = k
    · simp only [hjk, Function.update_self] at hj ⊢
      exact h.kept k hj
    · simp only [htrace hjk] at hj ⊢
      exact h.kept j hj
  · have hraised : (s.trace j).panicked ≠ [] := by
      by_cases hjk : j = k
      · simpa only [hjk, Function.update_self] using hj
      · simpa only [htrace hjk] using hj
    refine (h.panicked j hraised).imp (fun hne => ?_) fun ⟨u, hu⟩ => ⟨u, (hkeeping j u).trans hu⟩
    by_cases hjk : j = k
    · simpa only [hjk, Function.update_self] using hjk ▸ hne
    · simpa only [htrace hjk] using hne
  · have hraised := h.keeping j u ((hkeeping j u).symm.trans hj)
    by_cases hjk : j = k
    · simpa only [hjk, Function.update_self] using hjk ▸ hraised
    · simpa only [htrace hjk] using hraised
  · by_cases hjk : j = k
    · simp only [hjk, Function.update_self, Option.some.injEq] at hj ⊢
      rw [← hj, h.first k hopen]
    · simp only [htrace hjk] at hj ⊢
      exact h.returned j raised hj

/-- **Every step keeps the first panic.** -/
theorem Panicked.step (h : Panicked s) (hknown : Known s) (htallied : Tallied s) (hforked : Forked s)
    (hstep : Step s s') : Panicked s' := by
  cases hstep with
  | forkInOrder hbody hlen hhelpers =>
    exact h.quiet (fun _ => rfl) fun k => keepingIn_pushed _ rfl
  | @fork t len threads hbody hhelpers hfree =>
    have hkeeping (j : ℕ) (u : τ) : keepingIn j ((s.fork t len threads).stack u) =
        keepingIn j (s.stack u) :=
      keepingIn_pushed (t := t) (.run s.stages (s.current t) .notify) rfl u
    refine h.quiet (panics_update (k := s.stages) ?_ fun j hj =>
      ⟨stage_fork_of_ne hj, trace_fork_of_ne hj⟩) hkeeping
    obtain ⟨hstage, htrace⟩ := hknown.fresh s.stages le_rfl
    rw [panics, panics, stage_fork_self, trace_fork_self, hstage, htrace]
    rfl
  | inOrderNext hstack _ | spreadLoad hstack _ | waitOn hstack _ | waitNone hstack _
  | notifyLock hstack _ | wake hstack | itemReturns hstack | waitLock hstack _ | waitDone hstack _
  | sleep hstack | close hstack _ =>
    exact h.quiet (fun _ => rfl) fun k => keepingIn_calls [_] hstack k rfl
  | inOrderEnd hstack _ | inOrderPanic _ hstack | spreadNone hstack _ | leave hstack =>
    exact h.quiet (fun _ => rfl) fun k => keepingIn_calls [] hstack k rfl
  | @start t i k hidle hjob =>
    refine h.quiet (fun _ => rfl) fun j u => ?_
    have hpushed : keepingIn j ((s.calls t (.helper k (s.current t) .spread :: s.stack t)).stack u) =
        keepingIn j (s.stack u) := keepingIn_pushed _ rfl u
    rwa [hidle] at hpushed
  | next hstack hnext =>
    exact h.quiet (fun _ => rfl) fun k => keepingIn_calls _ hstack k (keeping_next hnext k)
  | @notifyOpened t k previous rest hstack =>
    exact h.notified hstack (.run k previous .spread) (by simp) fun j => rfl
  | @notifyFinished t k rest hstack =>
    exact h.notified hstack (.help k .claim) (by simp) fun j => rfl
  | @spreadSpawn t k _ _ hstack _ =>
    exact h.quiet (panics_update (k := k) (by simp [panics, State.setStage, State.calls]) fun j hj =>
        ⟨Function.update_of_ne hj .., rfl⟩) fun j => keepingIn_calls [_] hstack j rfl
  | @spreadSpent t k _ _ hstack _ | @claimNone t k _ hstack _ =>
    exact h.quiet (panics_update (k := k) (by simp [panics, State.setStage, State.calls]) fun j hj =>
        ⟨Function.update_of_ne hj .., rfl⟩) fun j => keepingIn_calls [] hstack j rfl
  | @claim t k _ hstack hlt =>
    exact h.quiet (panics_update (k := k) (by simp [panics, State.setStage, State.setTrace, State.calls])
        fun j hj => ⟨Function.update_of_ne hj .., Function.update_of_ne hj ..⟩) fun j =>
      keepingIn_calls [_] hstack j rfl
  | @settle t k i rest hstack =>
    exact h.quiet (panics_update (k := k) (by simp [panics, State.setStage, State.setTrace, State.calls])
        fun j hj => ⟨Function.update_of_ne hj .., Function.update_of_ne hj ..⟩) fun j =>
      keepingIn_calls [_] hstack j (by split <;> rfl)
  | @itemPanics t k i rest panic hstack => exact h.raised hstack
  | @keepFirst t k i panic rest hstack =>
    refine h.handed hstack ?_
    by_contra hreturned
    have hrunning : i ∈ runningIn k (s.stack t) := by
      rw [hstack, runningIn_cons]
      simp [Frame.running]
    exact absurd (hforked.returned k hreturned) ((htallied k).pos_of_running hrunning).ne'
  | waitHelp hstack _ =>
    exact h.quiet (fun _ => rfl) fun k => keepingIn_calls [_, _] hstack k rfl
  | @take t k previous rest hstack =>
    refine h.ended hstack (hforked.mine t k .taking ?_).2
    rw [hstack]
    exact List.mem_cons_self

end Panicked

/-! ## Every interleaving -/

section Reachable

variable [DecidableEq τ]

/-- The invariants together. -/
structure Sound (s : State τ π) : Prop where
  known : Known s
  tallied : Tallied s
  forked : Forked s
  panicked : Panicked s
  inSequence : InSequence s

theorem Sound.step (h : Sound s) (hstep : Step s s') : Sound s' :=
  ⟨h.known.step hstep, h.tallied.step h.known hstep, h.forked.step h.known hstep,
    h.panicked.step h.known h.tallied h.forked hstep, h.inSequence.step hstep⟩

/-- **Every reachable state is sound.** -/
theorem sound_of_reachable (h : Reachable s) : Sound s := by
  induction h with
  | refl => exact ⟨known_init, tallied_init, forked_init, panicked_init, .init⟩
  | tail _ hstep ih => exact ih.step hstep

/-- Once a fork has returned, nothing happens to its stage. -/
theorem Sound.trace_step {k : ℕ} (h : Sound s) (hreturned : (s.trace k).returned ≠ none)
    (hstep : Step s s') : s'.trace k = s.trace k := by
  obtain ⟨hle, -, hnone⟩ := (h.tallied k).done (h.forked.returned k hreturned)
  have hne {t : τ} {j i : ℕ} {f : Frame π} {rest : List (Frame π)} (hstack : s.stack t = f :: rest)
      (hrunning : f.running j = some i) : k ≠ j := by
    rintro rfl
    have hmem := hnone t
    rw [hstack, runningIn_cons, hrunning] at hmem
    exact absurd hmem (by simp)
  cases hstep with
  | fork hbody hhelpers hfree =>
    refine Function.update_of_ne ?_ _ _
    rintro rfl
    rw [(h.known.fresh s.stages le_rfl).2] at hreturned
    exact hreturned rfl
  | claim hstack hlt =>
    refine Function.update_of_ne ?_ _ _
    rintro rfl
    exact absurd hlt (Nat.not_lt.mpr hle)
  | itemPanics _ hstack | keepFirst hstack | settle hstack =>
    exact Function.update_of_ne (hne hstack (if_pos rfl)) _ _
  | @take t j previous rest hstack =>
    refine Function.update_of_ne ?_ _ _
    rintro rfl
    refine hreturned (h.forked.mine t k .taking ?_).2
    rw [hstack]
    exact List.mem_cons_self
  | _ => rfl

theorem Sound.trace_run {k : ℕ} (h : Sound s) (hreturned : (s.trace k).returned ≠ none)
    (hrun : ReflTransGen Step s s') : s'.trace k = s.trace k := by
  have hboth : Sound s' ∧ s'.trace k = s.trace k := by
    induction hrun with
    | refl => exact ⟨h, rfl⟩
    | tail _ hstep ih =>
      exact ⟨ih.1.step hstep, (ih.1.trace_step (by rw [ih.2]; exact hreturned) hstep).trans ih.2⟩
  exact hboth.2

/-- **A fork runs every item once, and waits for all of them.**  However the steps interleave, no index
is claimed or finished twice; and once `run` has returned or unwound, every index was claimed by one
thread and has finished, no thread is in the task and none enters it again, the panic raised is the
first one kept — there is one exactly when an item panicked — and the stage is open nowhere.  A fork
without helpers runs its items on one thread, in order, each once; all of them unless one unwinds it. -/
theorem fork_runs_every_item_once (s : State τ π) (hreach : Reachable s) (k o : ℕ) :
    ((s.trace k).calls.map Prod.fst).Nodup ∧
      (∀ i ∈ (s.trace k).calls.map Prod.fst, i < (s.stage k).len) ∧
      (s.trace k).finished.Nodup ∧
      (∀ i ∈ (s.trace k).finished, i ∈ (s.trace k).calls.map Prod.fst) ∧
      (∀ raised, (s.trace k).returned = some raised →
        (s.trace k).calls.map Prod.fst = List.range (s.stage k).len ∧
        (∀ i < (s.stage k).len, i ∈ (s.trace k).finished) ∧
        (∀ t, runningIn k (s.stack t) = []) ∧
        raised = (s.trace k).kept.head? ∧
        (raised.isSome ↔ (s.trace k).panicked ≠ []) ∧
        (∀ q, k ∉ (s.query q).opened) ∧
        ∀ s', ReflTransGen Step s s' → s'.trace k = s.trace k) ∧
      (s.order o).InTurn ∧
      ∀ raised, (s.order o).returned = some raised →
        (raised = none → (s.order o).calls.map Prod.fst = List.range (s.order o).len) ∧
        ∀ s', ReflTransGen Step s s' → s'.order o = s.order o := by
  have h := sound_of_reachable hreach
  have htally := h.tallied k
  refine ⟨?_, fun i hi => ?_, htally.finished_nodup, fun i hi => ?_, fun raised hraised => ?_,
    h.inSequence.inTurn o, fun raised hraised => ⟨fun hnone => ?_, fun s' hrun => ?_⟩⟩
  · rw [htally.claimed]
    exact List.nodup_range
  · rw [htally.claimed, List.mem_range] at hi
    exact hi.trans_le (min_le_right _ _)
  · rw [htally.claimed, List.mem_range]
    exact htally.finished_lt i hi
  · have hreturned : (s.trace k).returned ≠ none := by simp [hraised]
    obtain ⟨hle, hall, hnone⟩ := htally.done (h.forked.returned k hreturned)
    have hfirst := h.panicked.returned k raised hraised
    refine ⟨by rw [htally.claimed, min_eq_right hle], hall, hnone, hfirst, ?_, fun q hq => ?_,
      fun s' hrun => h.trace_run hreturned hrun⟩
    · rw [hfirst, List.isSome_head?]
      constructor
      · exact fun hkept => h.panicked.kept k (by simpa using hkept)
      · intro hpanicked
        rcases h.panicked.panicked k hpanicked with hkept | ⟨t, hkeep⟩
        · simpa using hkept
        · obtain ⟨i, hi⟩ := exists_running_of_keeping hkeep
          rw [hnone t] at hi
          exact absurd hi (by simp)
    · obtain ⟨t, phase, hmem, -⟩ := h.forked.inside q k hq
      exact hreturned (h.forked.mine t k phase hmem).2
  · rw [(h.inSequence.inTurn o).1, h.inSequence.returned o (hnone ▸ hraised)]
  · exact h.inSequence.order_run (by simp [hraised]) hrun

end Reachable

/-- Two items in a pool of two, run by the thread that forks: the second panics, after it has run two more in order. -/
theorem fork_runs_every_item_once_two : ∃ s : State Unit Unit,
    (s.trace 0).returned = some (some ()) ∧
      ((s.trace 0).calls.map Prod.fst).Nodup ∧
      (∀ i ∈ (s.trace 0).calls.map Prod.fst, i < (s.stage 0).len) ∧
      (s.trace 0).finished.Nodup ∧
      (∀ i ∈ (s.trace 0).finished, i ∈ (s.trace 0).calls.map Prod.fst) ∧
      (∀ raised, (s.trace 0).returned = some raised →
        (s.trace 0).calls.map Prod.fst = List.range (s.stage 0).len ∧
        (∀ i < (s.stage 0).len, i ∈ (s.trace 0).finished) ∧
        (∀ t, runningIn 0 (s.stack t) = []) ∧
        raised = (s.trace 0).kept.head? ∧
        (raised.isSome ↔ (s.trace 0).panicked ≠ []) ∧
        (∀ q, 0 ∉ (s.query q).opened) ∧
        ∀ s', ReflTransGen Step s s' → s'.trace 0 = s.trace 0) ∧
      (s.order 0).returned = some none ∧ (s.order 0).InTurn ∧
      ∀ raised, (s.order 0).returned = some raised →
        (raised = none → (s.order 0).calls.map Prod.fst = List.range (s.order 0).len) ∧
        ∀ s', ReflTransGen Step s s' → s'.order 0 = s.order 0 := by
  have run {s s' : State Unit Unit} (h : Reachable s) (hstep : Step s s') : Reachable s' := h.tail hstep
  have h : Reachable (State.init : State Unit Unit) := .refl
  have h := run h (@Step.fork _ _ _ _ () 2 2 trivial (by decide) rfl)
  have h := run h (.notifyOpened (t := ()) rfl)
  have h := run h (.next (t := ()) rfl rfl)
  have h := run h (.spreadLoad (t := ()) rfl (by decide))
  have h := run h (.spreadSpawn (t := ()) rfl (by decide))
  have h := run h (.spreadLoad (t := ()) rfl (by decide))
  have h := run h (.spreadSpent (t := ()) rfl (by decide))
  have h := run h (.next (t := ()) rfl rfl)
  have h := run h (.claim (t := ()) rfl (by decide))
  have h := run h (.itemReturns (t := ()) rfl)
  have h := run h (.settle (t := ()) rfl)
  have h := run h (.claim (t := ()) rfl (by decide))
  have h := run h (@Step.forkInOrder _ _ _ _ () 2 1 trivial (by decide) (by decide))
  have h := run h (.inOrderNext (t := ()) rfl (by decide))
  have h := run h (.inOrderEnd (t := ()) rfl (by decide))
  have h := run h (.itemPanics (t := ()) () rfl)
  have h := run h (.keepFirst (t := ()) rfl)
  have h := run h (.settle (t := ()) rfl)
  have h := run h (.notifyLock (t := ()) rfl rfl)
  have h := run h (.notifyFinished (t := ()) rfl)
  have h := run h (.claimNone (t := ()) rfl (by decide))
  have h := run h (.next (t := ()) rfl rfl)
  have h := run h (.claimNone (t := ()) rfl (by decide))
  have h := run h (.waitLock (t := ()) rfl rfl)
  have h := run h (.waitDone (t := ()) rfl rfl)
  have h := run h (.close (t := ()) rfl rfl)
  have h := run h (.take (t := ()) rfl)
  obtain ⟨hcalls, hlt, hfinished, hsub, hended, hturn, horder⟩ := fork_runs_every_item_once _ h 0 0
  exact ⟨_, rfl, hcalls, hlt, hfinished, hsub, hended, rfl, hturn, horder⟩

/-- **A fork without helpers stops at its first panic**: two items in a pool of one thread, the first of
which panics; the second never runs, and the fork has unwound. -/
theorem panic_in_order_leaves_items : ∃ s s' : State Unit Unit,
    Step State.init s ∧ Step s s' ∧
      s.stack () = [.inOrder 0 2 0] ∧ s'.stack () = [] ∧
      s'.order 0 = ⟨2, [(0, ())], some (some ())⟩ := by
  refine ⟨_, _, @Step.forkInOrder _ _ _ _ () 2 1 trivial (by decide) (by decide),
    .inOrderPanic (t := ()) () rfl, rfl, rfl, rfl⟩

end Parallel

end QueryEngine
