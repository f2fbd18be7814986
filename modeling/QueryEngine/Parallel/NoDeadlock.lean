import QueryEngine.Parallel.RunsOnce

/-!
# Parallel/NoDeadlock — no fork waits forever

A waiting thread sleeps on its stage only when every item of its query's open forks is claimed, so its
stage's unfinished items are in some thread's calls; and a thread asleep above them waits for a fork
opened later, so the threads that wait are ordered and the last one waits for a thread that runs.  No
wake-up is lost: between its check and its sleep a thread holds its query's lock, which a notifier takes
before it notifies and an opener to open, so what happens meanwhile is notified once the thread sleeps.
-/

open Relation

namespace QueryEngine

namespace Parallel

variable {τ π : Type} {s s' : State τ π}

/-! ## What the call on top is at -/

/-- What matters for waits and wakes of the call on top. -/
inductive View
  | other
  /-- Holding the lock, before the check. -/
  | checking (k : ℕ)
  /-- Past the check, the count not zero. -/
  | scanning (k : ℕ)
  /-- Nothing was claimable; about to sleep. -/
  | sleepy (k : ℕ)
  | asleep (k : ℕ)
  /-- The last item finished; the notify is to come, the lock first. -/
  | mustLock (k : ℕ)
  | mustNotify (k : ℕ)
  /-- The stage is open; the notify is to come. -/
  | opening (k : ℕ)
  deriving DecidableEq

/-- What a frame shows of its waiting. -/
def Frame.view : Frame π → View
  | .run k _ .notify => .opening k
  | .run k _ (.wait .check) => .checking k
  | .run k _ (.wait .scan) => .scanning k
  | .run k _ (.wait .sleep) => .sleepy k
  | .run k _ (.wait .asleep) => .asleep k
  | .help k .lock => .mustLock k
  | .help k .notify => .mustNotify k
  | _ => .other

/-- What a thread is at. -/
def view (frames : List (Frame π)) : View := (frames.head?.map Frame.view).getD .other

@[simp] theorem view_nil : view ([] : List (Frame π)) = .other := rfl

@[simp] theorem view_cons (f : Frame π) (fs : List (Frame π)) : view (f :: fs) = f.view := rfl

/-- The stage whose query's lock a thread holds. -/
def View.holds : View → Option ℕ
  | checking k | scanning k | sleepy k => some k
  | _ => none

/-- **A call that called another is at none of these**: it goes on from where it was. -/
def Buried (s : State τ π) : Prop := ∀ t, ∀ f ∈ (s.stack t).tail, f.view = .other

theorem Buried.below {t : τ} {f : Frame π} {rest : List (Frame π)} (h : Buried s)
    (hstack : s.stack t = f :: rest) : view rest = .other := by
  cases rest with
  | nil => rfl
  | cons g gs => exact h t g (by rw [hstack]; exact List.mem_cons_self)

theorem buried_init : Buried (State.init : State τ π) := fun _ _ h => absurd h (by simp [State.init])

section Buried

variable {t : τ} {frame : Frame π} {rest frames : List (Frame π)}

theorem Buried.calls [DecidableEq τ] (h : Buried s) (hframes : ∀ f ∈ frames.tail, f.view = .other) (u : τ) :
    ∀ f ∈ ((s.calls t frames).stack u).tail, f.view = .other := by
  by_cases hu : u = t
  · rw [hu, stack_calls_self]
    exact hframes
  · rw [stack_calls_of_ne hu]
    exact h u

/-- What is below a call is below the one in its place. -/
theorem Buried.under (h : Buried s) (hstack : s.stack t = frame :: rest) : ∀ f ∈ rest, f.view = .other :=
  fun f hf => h t f (by rw [hstack]; exact hf)

theorem Buried.popped (h : Buried s) (hstack : s.stack t = frame :: rest) :
    ∀ f ∈ rest.tail, f.view = .other :=
  fun f hf => h.under hstack f (List.mem_of_mem_tail hf)

/-- A thread that may fork is at none of these. -/
theorem view_of_mayFork (hbody : MayFork frames) : view frames = .other := by
  unfold MayFork at hbody
  split at hbody
  · rfl
  · rfl
  · rfl
  · exact absurd hbody id

theorem Buried.pushed (h : Buried s) (hbody : MayFork (s.stack t)) :
    ∀ f ∈ s.stack t, f.view = .other := by
  intro f hf
  have hview := view_of_mayFork hbody
  cases hstack : s.stack t with
  | nil => exact absurd (hstack ▸ hf) (by simp)
  | cons g rest =>
    rw [hstack] at hf hview
    rcases List.mem_cons.mp hf with rfl | hf
    · exact hview
    · exact h.under hstack f hf

theorem view_next (hnext : frame.next = some frames) : frame.view = .other ∧ ∀ f ∈ frames, f.view = .other := by
  unfold Frame.next at hnext
  split at hnext
  all_goals first
    | (obtain rfl := Option.some.inj hnext; simp [Frame.view])
    | exact absurd hnext (by simp)

theorem tail_woken (q : ℕ) (frames : List (Frame π)) : (s.woken q frames).tail = frames.tail := by
  rcases woken_cases s q frames with h | ⟨j, previous, rest, rfl, -, h⟩
  · rw [h]
  · rw [h]
    rfl

theorem Buried.step [DecidableEq τ] (h : Buried s) (hstep : Step s s') : Buried s' := by
  cases hstep with
  | forkInOrder hbody _ _ => exact h.calls (h.pushed hbody)
  | fork hbody _ _ => exact h.calls (h.pushed hbody)
  | inOrderNext hstack _ | spreadLoad hstack _ | waitOn hstack _ | waitNone hstack _
  | notifyLock hstack _ | wake hstack | itemReturns hstack | waitLock hstack _ | waitDone hstack _
  | sleep hstack | close hstack _ | spreadSpawn hstack _ | claim hstack _ | settle hstack
  | itemPanics _ hstack | keepFirst hstack => exact h.calls (h.under hstack)
  | inOrderEnd hstack _ | inOrderPanic _ hstack | spreadNone hstack _ | leave hstack | take hstack
  | spreadSpent hstack _ | claimNone hstack _ => exact h.calls (h.popped hstack)
  | start hidle hjob => exact h.calls fun f hf => absurd hf (by simp)
  | next hstack hnext =>
    refine h.calls fun f hf => ?_
    rcases List.mem_append.mp (List.mem_of_mem_tail hf) with hf | hf
    · exact (view_next hnext).2 f hf
    · exact h.under hstack f hf
  | @notifyOpened t k previous rest hstack | @notifyFinished t k rest hstack =>
    have hwoken : Buried (s.notifyAll (s.stage k).query) := fun u f hf =>
      h u f (tail_woken (s := s) _ _ ▸ hf)
    exact hwoken.calls (h.under hstack)
  | waitHelp hstack _ =>
    refine h.calls fun f hf => ?_
    rcases List.mem_cons.mp hf with rfl | hf
    · rfl
    · exact h.under hstack f hf

end Buried

/-! ## Locks, sleeps and wakes -/

/-- **What every interleaving keeps of waits and wakes**: `at' t` is what a thread is at. -/
structure Waits (at' : τ → View) (stage : ℕ → Stage π) (query : ℕ → Query τ) : Prop where
  /-- A lock is held by the thread between its check and its sleep. -/
  locked : ∀ q t, (query q).holder = some t ↔ ∃ k, (at' t).holds = some k ∧ (stage k).query = q
  /-- A count that reached zero after the check has its notify to come, the lock first. -/
  between : ∀ t k, at' t = .scanning k ∨ at' t = .sleepy k → (stage k).unfinished = 0 →
    ∃ u, at' u = .mustLock k
  /-- A count that reached zero under a sleeper has its notify to come. -/
  finished : ∀ t k, at' t = .asleep k → (stage k).unfinished = 0 →
    ∃ u, at' u = .mustLock k ∨ at' u = .mustNotify k
  /-- A thread goes to sleep when every open item of its query is claimed. -/
  exhausted : ∀ t k, at' t = .sleepy k → ∀ j ∈ (query (stage k).query).opened,
    (stage j).len ≤ (stage j).next
  /-- A stage opened under a sleeper has its notify to come. -/
  opened : ∀ t k, at' t = .asleep k → ∀ j ∈ (query (stage k).query).opened,
    (stage j).next < (stage j).len → ∃ u, at' u = .opening j
  /-- A sleeper's own items are claimed. -/
  spent : ∀ t k, at' t = .asleep k → (stage k).len ≤ (stage k).next

/-- What a thread is at, in a state. -/
def State.at' (s : State τ π) (t : τ) : View := view (s.stack t)

/-- A state none of whose sleepers misses a wake-up. -/
def Awake (s : State τ π) : Prop := Waits s.at' s.stage s.query

theorem awake_init : Awake (State.init : State τ π) := by
  refine ⟨fun q t => ?_, fun t k h => ?_, fun t k h => ?_, fun t k h => ?_, fun t k h => ?_,
    fun t k h => ?_⟩
  · simp [State.init, State.at', View.holds]
  all_goals exact absurd h (by simp [State.init, State.at'])

namespace Waits

variable [DecidableEq τ] {at' : τ → View} {stage stage' : ℕ → Stage π} {query query' : ℕ → Query τ}
  {t : τ} {v : View} {k : ℕ} (h : Waits at' stage query)
include h

/-- A thread at nothing of these that stays there, while counts only fall, items are only claimed and
stages only closed; or one woken for nothing. -/
theorem quiet (hv : at' t = .other ∨ ∃ k, at' t = .asleep k)
    (hquery : ∀ k, (stage' k).query = (stage k).query) (hlen : ∀ k, (stage' k).len = (stage k).len)
    (hnext : ∀ k, (stage k).next ≤ (stage' k).next)
    (hzero : ∀ k, (stage' k).unfinished = 0 → (stage k).unfinished = 0)
    (hholder : ∀ q, (query' q).holder = (query q).holder)
    (hopened : ∀ q, ∀ j ∈ (query' q).opened, j ∈ (query q).opened) :
    Waits (Function.update at' t .other) stage' query' := by
  have hat {u : τ} {w : View} (hw : w ≠ .other) (hu : Function.update at' t .other u = w) : at' u = w := by
    by_cases hut : u = t
    · rw [hut, Function.update_self] at hu
      exact absurd hu.symm hw
    · rwa [Function.update_of_ne hut] at hu
  have hkeep {u : τ} {w : View} (hw : w ≠ .other) (hw' : ∀ k, w ≠ .asleep k) (hu : at' u = w) :
      Function.update at' t .other u = w := by
    by_cases hut : u = t
    · rw [hut] at hu
      rcases hv with hv | ⟨k, hv⟩
      · exact absurd (hu.symm.trans hv) hw
      · exact absurd (hu.symm.trans hv) (hw' k)
    · rwa [Function.update_of_ne hut]
  refine ⟨fun q u => ?_, fun u k hu hk => ?_, fun u k hu hk => ?_, fun u k hu j hj => ?_,
    fun u k hu j hj hlt => ?_, fun u k hu => ?_⟩
  · rw [hholder, h.locked]
    simp only [hquery]
    refine exists_congr fun k => and_congr_left fun _ => ?_
    by_cases hut : u = t
    · rw [hut, Function.update_self]
      rcases hv with hv | ⟨j, hv⟩ <;> simp [hv, View.holds]
    · rw [Function.update_of_ne hut]
  · obtain ⟨w, hw⟩ := h.between u k (hu.imp (hat (by simp)) (hat (by simp))) (hzero k hk)
    exact ⟨w, hkeep (by simp) (by simp) hw⟩
  · obtain ⟨w, hw⟩ := h.finished u k (hat (by simp) hu) (hzero k hk)
    exact ⟨w, hw.imp (hkeep (by simp) (by simp)) (hkeep (by simp) (by simp))⟩
  · rw [hquery] at hj
    rw [hlen]
    exact (h.exhausted u k (hat (by simp) hu) j (hopened _ j hj)).trans (hnext j)
  · rw [hquery] at hj
    rw [hlen] at hlt
    obtain ⟨w, hw⟩ := h.opened u k (hat (by simp) hu) j (hopened _ j hj) ((hnext j).trans_lt hlt)
    exact ⟨w, hkeep (by simp) (by simp) hw⟩
  · rw [hlen]
    exact (h.spent u k (hat (by simp) hu)).trans (hnext k)

/-- Taking the lock and giving it back, on the way to a notify. -/
theorem lockTaken (hv : at' t = .mustLock k) (hfree : (query (stage k).query).holder = none) :
    Waits (Function.update at' t (.mustNotify k)) stage query := by
  obtain ⟨hlocked, hbetween, hfinished, hexhausted, hopened, hspent⟩ := h
  refine ⟨?_, fun u j hu hj => ?_, fun u j hu hj => ?_, ?_, fun u j hu i hi hlt => ?_, ?_⟩
  · grind [Function.update_apply, View.holds]
  · -- with the lock free, nobody of the notifier's query is between its check and its sleep
    have hown : (query (stage j).query).holder = some u :=
      (hlocked _ u).mpr ⟨j, by grind [Function.update_apply, View.holds], rfl⟩
    obtain ⟨w, hw⟩ := hbetween u j (by grind [Function.update_apply]) hj
    exact ⟨w, by grind [Function.update_apply]⟩
  · obtain ⟨w, hw⟩ := hfinished u j (by grind [Function.update_apply]) hj
    exact ⟨w, by grind [Function.update_apply]⟩
  · grind [Function.update_apply]
  · obtain ⟨w, hw⟩ := hopened u j (by grind [Function.update_apply]) i hi hlt
    exact ⟨w, by grind [Function.update_apply]⟩
  · grind [Function.update_apply]

/-- A thread takes the free lock to check. -/
theorem checked (hv : at' t = .other) (hfree : (query (stage k).query).holder = none)
    (hholder : ∀ q, (query' q).holder = if q = (stage k).query then some t else (query q).holder)
    (hsame : ∀ q, (query' q).opened = (query q).opened) :
    Waits (Function.update at' t (.checking k)) stage query' := by
  obtain ⟨hlocked, hbetween, hfinished, hexhausted, hopened, hspent⟩ := h
  refine ⟨fun q u => ?_, fun u j hu hj => ?_, fun u j hu hj => ?_, ?_, fun u j hu i hi hlt => ?_, ?_⟩
  · rw [hholder]
    grind [Function.update_apply, View.holds]
  · obtain ⟨w, hw⟩ := hbetween u j (by grind [Function.update_apply]) hj
    exact ⟨w, by grind [Function.update_apply]⟩
  · obtain ⟨w, hw⟩ := hfinished u j (by grind [Function.update_apply]) hj
    exact ⟨w, by grind [Function.update_apply]⟩
  · grind [Function.update_apply]
  · rw [hsame] at hi
    obtain ⟨w, hw⟩ := hopened u j (by grind [Function.update_apply]) i hi hlt
    exact ⟨w, by grind [Function.update_apply]⟩
  · grind [Function.update_apply]

/-- The lock's holder gives it back, and sleeps or goes on. -/
theorem released (hv : (at' t).holds = some k)
    (hholder : ∀ q, (query' q).holder = if q = (stage k).query then none else (query q).holder)
    (hsame : ∀ q, (query' q).opened = (query q).opened)
    (hv' : v = .other ∨ (v = .asleep k ∧ at' t = .sleepy k ∧ k ∈ (query (stage k).query).opened)) :
    Waits (Function.update at' t v) stage query' := by
  obtain ⟨hlocked, hbetween, hfinished, hexhausted, hopened, hspent⟩ := h
  have hown := (hlocked (stage k).query t).mpr ⟨k, hv, rfl⟩
  refine ⟨fun q u => ?_, fun u j hu hj => ?_, fun u j hu hj => ?_, ?_, fun u j hu i hi hlt => ?_, ?_⟩
  · rw [hholder]
    grind [Function.update_apply, View.holds]
  · obtain ⟨w, hw⟩ := hbetween u j (by grind [Function.update_apply]) hj
    exact ⟨w, by grind [Function.update_apply, View.holds]⟩
  · by_cases hut : u = t
    · obtain ⟨w, hw⟩ := hbetween t j (by grind [Function.update_apply]) hj
      exact ⟨w, by grind [Function.update_apply]⟩
    · obtain ⟨w, hw⟩ := hfinished u j (by grind [Function.update_apply]) hj
      exact ⟨w, by grind [Function.update_apply, View.holds]⟩
  · grind [Function.update_apply]
  · rw [hsame] at hi
    by_cases hut : u = t
    · have hle := hexhausted t j (by grind [Function.update_apply]) i hi
      exact absurd hlt (Nat.not_lt.mpr hle)
    · obtain ⟨w, hw⟩ := hopened u j (by grind [Function.update_apply]) i hi hlt
      exact ⟨w, by grind [Function.update_apply, View.holds]⟩
  · grind [Function.update_apply]

/-- The lock's holder finds the count not zero, or nothing to claim. -/
theorem held (hv : (at' t = .checking k ∧ v = .scanning k ∧ (stage k).unfinished ≠ 0) ∨
    (at' t = .scanning k ∧ v = .sleepy k ∧
      ∀ j ∈ (query (stage k).query).opened, (stage j).len ≤ (stage j).next)) :
    Waits (Function.update at' t v) stage query := by
  obtain ⟨hlocked, hbetween, hfinished, hexhausted, hopened, hspent⟩ := h
  refine ⟨?_, fun u j hu hj => ?_, fun u j hu hj => ?_, ?_, fun u j hu i hi hlt => ?_, ?_⟩
  · grind [Function.update_apply, View.holds]
  · obtain ⟨w, hw⟩ := hbetween u j (by grind [Function.update_apply]) hj
    exact ⟨w, by grind [Function.update_apply]⟩
  · obtain ⟨w, hw⟩ := hfinished u j (by grind [Function.update_apply]) hj
    exact ⟨w, by grind [Function.update_apply]⟩
  · grind [Function.update_apply]
  · obtain ⟨w, hw⟩ := hopened u j (by grind [Function.update_apply]) i hi hlt
    exact ⟨w, by grind [Function.update_apply]⟩
  · grind [Function.update_apply]

/-- The last item finishes: its thread is to notify. -/
theorem settled (hv : at' t = .other) (hother : ∀ j, j ≠ k → stage' j = stage j)
    (hk : (stage' k).query = (stage k).query ∧ (stage' k).len = (stage k).len ∧
      (stage' k).next = (stage k).next) :
    Waits (Function.update at' t (.mustLock k)) stage' query := by
  have hquery (j : ℕ) : (stage' j).query = (stage j).query := by
    by_cases hj : j = k
    · rw [hj, hk.1]
    · rw [hother j hj]
  have hlen (j : ℕ) : (stage' j).len = (stage j).len := by
    by_cases hj : j = k
    · rw [hj, hk.2.1]
    · rw [hother j hj]
  have hnext (j : ℕ) : (stage' j).next = (stage j).next := by
    by_cases hj : j = k
    · rw [hj, hk.2.2]
    · rw [hother j hj]
  have hzero (j : ℕ) (hj : j ≠ k) : (stage' j).unfinished = (stage j).unfinished := by rw [hother j hj]
  obtain ⟨hlocked, hbetween, hfinished, hexhausted, hopened, hspent⟩ := h
  refine ⟨?_, fun u j hu hj => ?_, fun u j hu hj => ?_, ?_, fun u j hu i hi hlt => ?_, ?_⟩
  · grind [Function.update_apply, View.holds]
  · by_cases hjk : j = k
    · exact ⟨t, by grind [Function.update_apply]⟩
    · obtain ⟨w, hw⟩ := hbetween u j (by grind [Function.update_apply]) (hzero j hjk ▸ hj)
      exact ⟨w, by grind [Function.update_apply]⟩
  · by_cases hjk : j = k
    · exact ⟨t, by grind [Function.update_apply]⟩
    · obtain ⟨w, hw⟩ := hfinished u j (by grind [Function.update_apply]) (hzero j hjk ▸ hj)
      exact ⟨w, by grind [Function.update_apply]⟩
  · grind [Function.update_apply]
  · rw [hquery] at hi
    rw [hlen, hnext] at hlt
    obtain ⟨w, hw⟩ := hopened u j (by grind [Function.update_apply]) i hi hlt
    exact ⟨w, by grind [Function.update_apply]⟩
  · grind [Function.update_apply]

/-- **A notify leaves nobody of its query asleep.** -/
theorem notified {at'' : τ → View} (hv : at' t = .mustNotify k ∨ at' t = .opening k)
    (hknown : ∀ q, ∀ j ∈ (query q).opened, (stage j).query = q)
    (hown : at'' t = .other)
    (hothers : ∀ u, u ≠ t → at'' u = at' u ∧ (∀ j, at' u = .asleep j → (stage j).query ≠ (stage k).query) ∨
      at'' u = .other ∧ ∃ j, at' u = .asleep j) :
    Waits at'' stage query := by
  obtain ⟨hlocked, hbetween, hfinished, hexhausted, hopened, hspent⟩ := h
  -- what is said of a thread that is not asleep is said of it as it was
  have hback {u : τ} {w : View} (hw : w ≠ .other) (hu : at'' u = w) : at' u = w ∧
      ∀ j, w = .asleep j → (stage j).query ≠ (stage k).query := by
    by_cases hut : u = t
    · exact absurd (hu.symm.trans (hut ▸ hown)) hw
    · rcases hothers u hut with ⟨heq, hq⟩ | ⟨heq, -⟩
      · exact ⟨heq ▸ hu, fun j hj => hq j (heq.symm.trans (hu.trans hj))⟩
      · exact absurd (hu.symm.trans heq) hw
  have hkeep {u : τ} {w : View} (hu : at' u = w) (hut : u ≠ t) (hw : ∀ j, w ≠ .asleep j) : at'' u = w := by
    rcases hothers u hut with ⟨heq, -⟩ | ⟨-, j, hj⟩
    · rw [heq, hu]
    · exact absurd (hu.symm.trans hj) (hw j)
  refine ⟨fun q u => ?_, fun u j hu hj => ?_, fun u j hu hj => ?_, fun u j hu i hi => ?_,
    fun u j hu i hi hlt => ?_, fun u j hu => hspent u j (hback (by simp) hu).1⟩
  · rw [hlocked]
    refine exists_congr fun j => and_congr_left fun _ => ?_
    by_cases hut : u = t
    · rw [hut, hown]
      rcases hv with hv | hv <;> simp [hv, View.holds]
    · rcases hothers u hut with ⟨heq, -⟩ | ⟨heq, i, hi⟩
      · rw [heq]
      · simp [heq, hi, View.holds]
  · obtain ⟨w, hw⟩ := hbetween u j
      (hu.imp (fun hu => (hback (by simp) hu).1) fun hu => (hback (by simp) hu).1) hj
    refine ⟨w, hkeep hw ?_ (by simp)⟩
    rintro rfl
    rcases hv with hv | hv <;> exact absurd (hw.symm.trans hv) (by simp)
  · obtain ⟨hat, hquery⟩ := hback (by simp) hu
    obtain ⟨w, hw⟩ := hfinished u j hat hj
    have hwt : w ≠ t := by
      rintro rfl
      rcases hw with hw | hw <;> rcases hv with hv | hv
      all_goals have heq := hw.symm.trans hv
      · exact absurd heq (by simp)
      · exact absurd heq (by simp)
      · obtain rfl := View.mustNotify.inj heq
        exact hquery j rfl rfl
      · exact absurd heq (by simp)
    exact ⟨w, hw.imp (fun hw => hkeep hw hwt (by simp)) fun hw => hkeep hw hwt (by simp)⟩
  · exact hexhausted u j (hback (by simp) hu).1 i hi
  · obtain ⟨hat, hquery⟩ := hback (by simp) hu
    obtain ⟨w, hw⟩ := hopened u j hat i hi hlt
    refine ⟨w, hkeep hw ?_ (by simp)⟩
    rintro rfl
    rcases hv with hv | hv
    · exact absurd (hw.symm.trans hv) (by simp)
    · obtain rfl := View.opening.inj (hw.symm.trans hv)
      exact hquery j rfl (hknown _ i hi).symm

/-- A stage is opened: its fork is to notify. -/
theorem forked {n q : ℕ} (hv : at' t = .other) (hfree : (query q).holder = none)
    (hold : ∀ u, ∀ j, (at' u).holds = some j ∨ at' u = .asleep j → j ≠ n)
    (hopenedOld : ∀ q, ∀ j ∈ (query q).opened, j ≠ n)
    (hstage : ∀ j, j ≠ n → stage' j = stage j) (hquery : (stage' n).query = q)
    (hholder : ∀ q, (query' q).holder = (query q).holder)
    (hopened' : ∀ p, ∀ j ∈ (query' p).opened, j ∈ (query p).opened ∨ (j = n ∧ p = q)) :
    Waits (Function.update at' t (.opening n)) stage' query' := by
  obtain ⟨hlocked, hbetween, hfinished, hexhausted, hopened, hspent⟩ := h
  refine ⟨fun p u => ?_, fun u j hu hj => ?_, fun u j hu hj => ?_, fun u j hu i hi => ?_,
    fun u j hu i hi hlt => ?_, fun u j hu => ?_⟩
  · rw [hholder, hlocked]
    grind [Function.update_apply, View.holds]
  · obtain ⟨w, hw⟩ := hbetween u j (by grind [Function.update_apply])
      (by grind [Function.update_apply, View.holds])
    exact ⟨w, by grind [Function.update_apply]⟩
  · obtain ⟨w, hw⟩ := hfinished u j (by grind [Function.update_apply]) (by grind [Function.update_apply])
    exact ⟨w, by grind [Function.update_apply]⟩
  · have hat : at' u = .sleepy j := by grind [Function.update_apply]
    rw [hstage j (hold u j (.inl (by rw [hat]; rfl)))] at hi
    rcases hopened' _ i hi with hi | ⟨rfl, hq⟩
    · rw [hstage i (hopenedOld _ i hi)]
      exact hexhausted u j hat i hi
    · -- a thread about to sleep holds the lock the fork took
      have hlock := (hlocked _ u).mpr ⟨j, by rw [hat]; rfl, hq⟩
      rw [hfree] at hlock
      exact absurd hlock (by simp)
  · by_cases hin : i = n
    · exact ⟨t, by grind [Function.update_apply]⟩
    · obtain ⟨w, hw⟩ := hopened u j (by grind [Function.update_apply]) i
        (by grind [Function.update_apply]) (by grind)
      exact ⟨w, by grind [Function.update_apply]⟩
  · grind [Function.update_apply]

end Waits

section Awake

variable {t : τ} {frame : Frame π} {rest frames : List (Frame π)} {k : ℕ}

theorem at_of_stack (hstack : s.stack t = frame :: rest) : s.at' t = frame.view := by
  rw [State.at', hstack, view_cons]

/-- A thread that holds a lock or is asleep is in a call about the stage. -/
theorem stack_of_view (h : (s.at' t).holds = some k ∨ s.at' t = .asleep k) :
    ∃ f rest, s.stack t = f :: rest ∧ f.stage = some k := by
  cases hstack : s.stack t with
  | nil => simp [State.at', hstack, View.holds] at h
  | cons f rest =>
    refine ⟨f, rest, rfl, ?_⟩
    rw [at_of_stack hstack] at h
    unfold Frame.view at h
    split at h
    all_goals simp_all [View.holds, Frame.stage]

/-- A thread that is to notify is in a call about the stage. -/
theorem stage_of_notifying (hstack : s.stack t = frame :: rest)
    (h : s.at' t = .mustLock k ∨ s.at' t = .mustNotify k ∨ s.at' t = .opening k) : frame.stage = some k := by
  rw [at_of_stack hstack] at h
  unfold Frame.view at h
  split at h
  all_goals simp_all [Frame.stage]

theorem stack_of_asleep {frames : List (Frame π)} (h : view frames = .asleep k) :
    ∃ previous rest, frames = .run k previous (.wait .asleep) :: rest := by
  cases frames with
  | nil => exact absurd h (by simp)
  | cons f rest =>
    rw [view_cons] at h
    unfold Frame.view at h
    split at h
    case h_5 => exact ⟨_, _, by rw [View.asleep.inj h]⟩
    all_goals exact absurd h (by simp)

/-- The holder of a query's lock, once a thread takes it or gives it back. -/
theorem holder_hold (holder : Option τ) (q : ℕ) : ((s.hold k holder).query q).holder =
    if q = (s.stage k).query then holder else (s.query q).holder := by
  unfold State.hold State.setQuery
  dsimp only
  by_cases hq : q = (s.stage k).query
  · rw [hq, Function.update_self, if_pos rfl]
  · rw [Function.update_of_ne hq, if_neg hq]

/-- A notify makes of a thread asleep in its query one that checks again, and changes no other. -/
theorem view_woken (q : ℕ) (u : τ) :
    view (s.woken q (s.stack u)) = s.at' u ∧ (∀ j, s.at' u = .asleep j → (s.stage j).query ≠ q) ∨
      view (s.woken q (s.stack u)) = .other ∧ ∃ j, s.at' u = .asleep j := by
  unfold State.at'
  generalize s.stack u = frames
  unfold State.woken
  split
  · next k previous rest =>
    split
    · exact .inr ⟨rfl, k, rfl⟩
    · next hq =>
      refine .inl ⟨rfl, fun j hj => ?_⟩
      obtain rfl := View.asleep.inj hj
      exact hq
  · next frames hne =>
    refine .inl ⟨rfl, fun j hj => ?_⟩
    obtain ⟨previous, rest, hstack⟩ := stack_of_asleep hj
    exact absurd hstack (hne j previous rest)

variable [DecidableEq τ]

theorem at_calls : (s.calls t frames).at' = Function.update s.at' t (view frames) := by
  funext u
  by_cases hu : u = t
  · rw [hu, Function.update_self, State.at', stack_calls_self]
  · rw [Function.update_of_ne hu, State.at', stack_calls_of_ne hu]
    rfl

/-- A thread of the stages it was in, at nothing of these, where no counter went back. -/
theorem Awake.quiet (h : Awake s) (hv : s.at' t = .other ∨ ∃ k, s.at' t = .asleep k)
    (hframes : view frames = .other) (hstack : s'.stack = (s.calls t frames).stack)
    (hquery : ∀ k, (s'.stage k).query = (s.stage k).query)
    (hlen : ∀ k, (s'.stage k).len = (s.stage k).len)
    (hnext : ∀ k, (s.stage k).next ≤ (s'.stage k).next)
    (hzero : ∀ k, (s'.stage k).unfinished = 0 → (s.stage k).unfinished = 0)
    (hholder : ∀ q, (s'.query q).holder = (s.query q).holder)
    (hopened : ∀ q, ∀ j ∈ (s'.query q).opened, j ∈ (s.query q).opened) : Awake s' := by
  have hat : s'.at' = Function.update s.at' t .other := by
    rw [← hframes, ← at_calls]
    exact funext fun u => by rw [State.at', State.at', hstack]
  rw [Awake, hat]
  exact Waits.quiet h hv hquery hlen hnext hzero hholder hopened

/-- A quiet step that changes one stage. -/
theorem Awake.staged (h : Awake s) (stage : Stage π) (hv : s.at' t = .other) (hframes : view frames = .other)
    (hstack : s'.stack = (s.calls t frames).stack) (hstage : s'.stage = Function.update s.stage k stage)
    (hquery : s'.query = s.query)
    (hk : stage.query = (s.stage k).query ∧ stage.len = (s.stage k).len ∧
      (s.stage k).next ≤ stage.next ∧ (stage.unfinished = 0 → (s.stage k).unfinished = 0)) :
    Awake s' := by
  obtain ⟨hq, hlen, hnext, hzero⟩ := hk
  have hself : s'.stage k = stage := by rw [hstage, Function.update_self]
  have hother {j : ℕ} (hj : j ≠ k) : s'.stage j = s.stage j := by rw [hstage, Function.update_of_ne hj]
  refine h.quiet (.inl hv) hframes hstack (fun j => ?_) (fun j => ?_) (fun j => ?_) (fun j => ?_)
    (fun q => by rw [hquery]) fun q j hj => by rwa [hquery] at hj
  all_goals by_cases hj : j = k
  · rw [hj, hself, hq]
  · rw [hother hj]
  · rw [hj, hself, hlen]
  · rw [hother hj]
  · rw [hj, hself]
    exact hnext
  · rw [hother hj]
  · rw [hj, hself]
    exact hzero
  · rw [hother hj]
    exact fun h => h

/-- A thread moved, and what it shares changed as told. -/
theorem Awake.moved (_ : Awake s) (hstack : s'.stack = (s.calls t frames).stack)
    (h : Waits (Function.update s.at' t (view frames)) s'.stage s'.query) : Awake s' := by
  have hat : s'.at' = Function.update s.at' t (view frames) := by
    rw [← at_calls]
    exact funext fun u => by rw [State.at', State.at', hstack]
  rw [Awake, hat]
  exact h

/-- A notify: the notifier goes on, and whoever of its query is asleep checks again. -/
theorem Awake.notified (h : Awake s) (hknown : Known s) (hstack : s.stack t = frame :: rest)
    (hv : frame.view = .mustNotify k ∨ frame.view = .opening k) {frame' : Frame π}
    (hframe : frame'.view = .other) :
    Awake ((s.notifyAll (s.stage k).query).calls t (frame' :: rest)) := by
  have hat := at_of_stack hstack
  refine Waits.notified h (t := t) (k := k) (hv.imp (hat.trans ·) (hat.trans ·))
    (fun q j hj => (hknown.opened q j hj).2) ?_ fun u hu => ?_
  · rw [at_calls, Function.update_self, view_cons, hframe]
  · rw [at_calls, Function.update_of_ne hu]
    exact view_woken (s.stage k).query u

/-- **Every step keeps the waits and wakes.** -/
theorem Awake.step (h : Awake s) (hsound : Sound s) (hburied : Buried s) (hstep : Step s s') :
    Awake s' := by
  cases hstep with
  | forkInOrder hbody _ _ =>
    exact h.quiet (.inl (view_of_mayFork hbody)) rfl rfl (fun _ => rfl) (fun _ => rfl) (fun _ => le_rfl)
      (fun _ h => h) (fun _ => rfl) fun _ _ h => h
  | @fork t len threads hbody hhelpers hfree =>
    have hlt {u : τ} {j : ℕ} (hj : (s.at' u).holds = some j ∨ s.at' u = .asleep j) : j < s.stages := by
      obtain ⟨f, rest, hstack, hf⟩ := stack_of_view hj
      exact hsound.known.top hstack hf
    refine h.moved rfl (Waits.forked (q := (s.current t).getD s.queries) h (view_of_mayFork hbody) hfree
      (fun u j hj => (hlt hj).ne) (fun q j hj => (hsound.known.opened q j hj).1.ne)
      (fun j hj => stage_fork_of_ne hj) ?_ holder_fork fun q j => mem_opened_fork.mp)
    rw [stage_fork_self]
  | inOrderNext hstack _ | spreadLoad hstack _ | itemReturns hstack | itemPanics _ hstack =>
    exact h.quiet (.inl (at_of_stack hstack)) rfl rfl (fun _ => rfl) (fun _ => rfl) (fun _ => le_rfl)
      (fun _ h => h) (fun _ => rfl) fun _ _ h => h
  | wake hstack =>
    exact h.quiet (.inr ⟨_, at_of_stack hstack⟩) rfl rfl (fun _ => rfl) (fun _ => rfl)
      (fun _ => le_rfl) (fun _ h => h) (fun _ => rfl) fun _ _ h => h
  | inOrderEnd hstack _ | inOrderPanic _ hstack | spreadNone hstack _ | leave hstack =>
    exact h.quiet (.inl (at_of_stack hstack)) (hburied.below hstack) rfl (fun _ => rfl) (fun _ => rfl)
      (fun _ => le_rfl) (fun _ h => h) (fun _ => rfl) fun _ _ h => h
  | start hidle hjob =>
    exact h.quiet (.inl (congrArg view hidle)) rfl rfl (fun _ => rfl) (fun _ => rfl) (fun _ => le_rfl)
      (fun _ h => h) (fun _ => rfl) fun _ _ h => h
  | @next t frame rest frames hstack hnext =>
    obtain ⟨hframe, hframes⟩ := view_next hnext
    have hview : view (frames ++ rest) = .other := by
      cases frames with
      | nil => exact hburied.below hstack
      | cons f fs => exact hframes f List.mem_cons_self
    exact h.quiet (.inl ((at_of_stack hstack).trans hframe)) hview rfl (fun _ => rfl) (fun _ => rfl)
      (fun _ => le_rfl) (fun _ h => h) (fun _ => rfl) fun _ _ h => h
  | @notifyOpened t k previous rest hstack =>
    exact h.notified hsound.known hstack (.inr rfl) rfl
  | @notifyFinished t k rest hstack =>
    exact h.notified hsound.known hstack (.inl rfl) rfl
  | spreadSpawn hstack _ =>
    exact h.staged _ (at_of_stack hstack) rfl rfl rfl rfl ⟨rfl, rfl, le_rfl, fun h => h⟩
  | spreadSpent hstack _ =>
    exact h.staged _ (at_of_stack hstack) (hburied.below hstack) rfl rfl rfl
      ⟨rfl, rfl, le_rfl, fun h => h⟩
  | claim hstack _ =>
    exact h.staged _ (at_of_stack hstack) rfl rfl rfl rfl ⟨rfl, rfl, Nat.le_succ _, fun h => h⟩
  | claimNone hstack _ =>
    exact h.staged _ (at_of_stack hstack) (hburied.below hstack) rfl rfl rfl
      ⟨rfl, rfl, Nat.le_succ _, fun h => h⟩
  | keepFirst hstack =>
    exact h.staged _ (at_of_stack hstack) rfl rfl rfl rfl ⟨rfl, rfl, le_rfl, fun h => h⟩
  | @settle t k i rest hstack =>
    by_cases hlast : (s.stage k).unfinished - 1 = 0
    · simp only [hlast, if_true]
      exact h.moved rfl (Waits.settled h (at_of_stack hstack) (fun j hj => Function.update_of_ne hj ..)
        (by simp [State.setStage, State.setTrace, State.calls]))
    · simp only [hlast, if_false]
      exact h.staged _ (at_of_stack hstack) rfl rfl rfl rfl
        ⟨rfl, rfl, le_rfl, fun hzero => absurd hzero hlast⟩
  | @notifyLock t k rest hstack hfree =>
    exact h.moved rfl (Waits.lockTaken h (at_of_stack hstack) hfree)
  | @waitLock t k previous rest hstack hfree =>
    exact h.moved rfl (Waits.checked h (at_of_stack hstack) hfree (holder_hold _) (opened_hold _))
  | @waitDone t k previous rest hstack hzero =>
    exact h.moved rfl (Waits.released h (by rw [at_of_stack hstack]; rfl) (holder_hold _) (opened_hold _)
      (.inl rfl))
  | @waitOn t k previous rest hstack hpos =>
    exact h.moved rfl (Waits.held h (.inl ⟨at_of_stack hstack, rfl, hpos⟩))
  | @waitHelp t k j previous rest hstack hfind =>
    exact h.moved rfl (Waits.released h (by rw [at_of_stack hstack]; rfl) (holder_hold _) (opened_hold _)
      (.inl rfl))
  | @waitNone t k previous rest hstack hfind =>
    refine h.moved rfl (Waits.held h (.inr ⟨at_of_stack hstack, rfl, fun j hj => ?_⟩))
    have hclaimed := List.find?_eq_none.mp hfind j hj
    simp only [decide_eq_true_eq, Nat.not_lt] at hclaimed
    exact hclaimed
  | @sleep t k previous rest hstack =>
    have hown : (k, Phase.waiting) ∈ forksIn (s.stack t) := by
      rw [hstack]
      exact List.mem_cons_self
    exact h.moved rfl (Waits.released h (by rw [at_of_stack hstack]; rfl) (holder_hold _) (opened_hold _)
      (.inr ⟨rfl, at_of_stack hstack, hsound.forked.opened t k _ hown (by simp)⟩))
  | close hstack _ =>
    exact h.quiet (.inl (at_of_stack hstack)) rfl rfl (fun _ => rfl) (fun _ => rfl) (fun _ => le_rfl)
      (fun _ h => h) holder_close fun q j hj => (mem_opened_close.mp hj).1
  | take hstack =>
    exact h.staged _ (at_of_stack hstack) (hburied.below hstack) rfl rfl rfl
      ⟨rfl, rfl, le_rfl, fun h => h⟩

end Awake

/-! ## Who waits for whom -/

section Waiting

variable {t u : τ} {frame : Frame π} {rest : List (Frame π)} {k j : ℕ}

/-- A thread is asleep on a stage that another sleeping thread is in an item of. -/
def WaitsFor (s : State τ π) (t u : τ) : Prop :=
  ∃ k, s.at' t = .asleep k ∧ 0 < (s.stage k).unfinished ∧ runningIn k (s.stack u) ≠ [] ∧
    ∃ j, s.at' u = .asleep j

theorem stage_of_running {f : Frame π} {i : ℕ} (h : f.running k = some i) : f.stage = some k := by
  cases f with
  | help j point =>
    cases point with
    | item _ | keepFirst _ _ | settle _ =>
      simp only [Frame.running, Option.ite_none_right_eq_some] at h
      exact congrArg some h.1
    | claim | lock | notify => exact absurd h (by simp [Frame.running])
  | inOrder _ _ _ | run _ _ _ | helper _ _ _ | spread _ _ => exact absurd h (by simp [Frame.running])

/-- The fork a thread sleeps in was opened after every stage it is in an item of. -/
theorem lt_of_asleep (hordered : Ordered (s.stack u)) (hrunning : runningIn k (s.stack u) ≠ [])
    (hj : s.at' u = .asleep j) : k < j := by
  obtain ⟨previous, rest, hstack⟩ := stack_of_asleep hj
  obtain ⟨i, hi⟩ := List.exists_mem_of_ne_nil _ hrunning
  rw [hstack] at hordered hi
  obtain ⟨f, hf, hrun⟩ := mem_runningIn.mp hi
  rcases List.mem_cons.mp hf with rfl | hf
  · exact absurd hrun (by simp [Frame.running])
  · exact (List.pairwise_cons.mp hordered).1 f hf j rfl k (stage_of_running hrun)

/-- **A sleeper's unfinished items are run by threads that are awake or sleep in later forks.** -/
theorem Awake.runner (h : Awake s) (hsound : Sound s) (hasleep : s.at' t = .asleep k)
    (hpos : 0 < (s.stage k).unfinished) :
    ∃ u, runningIn k (s.stack u) ≠ [] ∧ ∀ j, s.at' u = .asleep j → k < j := by
  obtain ⟨u, i, hi⟩ := (hsound.tallied k).exists_running hpos (h.spent t k hasleep)
  have hne : runningIn k (s.stack u) ≠ [] := List.ne_nil_of_mem hi
  exact ⟨u, hne, fun j hj => lt_of_asleep (hsound.forked.ordered u) hne hj⟩

/-- Along waits, the forks slept in are later and later. -/
theorem lt_of_waitsFor (hsound : Sound s) (hwaits : TransGen (WaitsFor s) t u) :
    ∀ k j, s.at' t = .asleep k → s.at' u = .asleep j → k < j := by
  induction hwaits with
  | single hwait =>
    intro k j hk hj
    obtain ⟨k', hk', -, hrunning, -⟩ := hwait
    obtain rfl := View.asleep.inj (hk.symm.trans hk')
    exact lt_of_asleep (hsound.forked.ordered _) hrunning hj
  | tail _ hwait ih =>
    intro k j hk hj
    obtain ⟨k', hk', -, hrunning, -⟩ := hwait
    exact (ih k k' hk hk').trans (lt_of_asleep (hsound.forked.ordered _) hrunning hj)

theorem not_waitsFor_self (hsound : Sound s) : ¬TransGen (WaitsFor s) t t := by
  intro hwaits
  obtain ⟨u, ⟨k, hk, -⟩, -⟩ := TransGen.head'_iff.mp hwaits
  exact lt_irrefl k (lt_of_waitsFor hsound hwaits k k hk hk)

/-! ## Who can go on -/

variable [DecidableEq τ]

/-- A step of the thread is enabled. -/
def CanMove (s : State τ π) (t : τ) : Prop := ∃ s', Step s s' ∧ s'.stack t ≠ s.stack t

/-- A step that changes the thread's calls. -/
theorem canMove_of_step {frames : List (Frame π)} (hstack : s.stack t = frame :: rest)
    (hstep : Step s s') (heq : s'.stack t = frames) (hne : frames ≠ frame :: rest) : CanMove s t :=
  ⟨s', hstep, by rw [heq, hstack]; exact hne⟩

theorem stack_of_holds {frames : List (Frame π)} (h : (view frames).holds = some k) :
    ∃ previous point rest, frames = .run k previous (.wait point) :: rest ∧
      (point = .check ∨ point = .scan ∨ point = .sleep) := by
  cases frames with
  | nil => exact absurd h (by simp [View.holds])
  | cons f rest =>
    rw [view_cons] at h
    unfold Frame.view at h
    split at h
    case h_2 => exact ⟨_, .check, rest, by rw [Option.some.inj h], .inl rfl⟩
    case h_3 => exact ⟨_, .scan, rest, by rw [Option.some.inj h], .inr (.inl rfl)⟩
    case h_4 => exact ⟨_, .sleep, rest, by rw [Option.some.inj h], .inr (.inr rfl)⟩
    all_goals exact absurd h (by simp [View.holds])

/-- Past its check a thread waits for nobody. -/
theorem canMove_of_holds (h : (s.at' t).holds = some k) : CanMove s t := by
  obtain ⟨previous, point, rest, hstack, rfl | rfl | rfl⟩ := stack_of_holds h
  · by_cases hzero : (s.stage k).unfinished = 0
    · exact canMove_of_step hstack (.waitDone hstack hzero) stack_calls_self (by simp)
    · exact canMove_of_step hstack (.waitOn hstack hzero) stack_calls_self (by simp)
  · cases hfind : (s.queryOf k).opened.find? (fun j => decide ((s.stage j).next < (s.stage j).len)) with
    | none => exact canMove_of_step hstack (.waitNone hstack hfind) stack_calls_self (by simp)
    | some j => exact canMove_of_step hstack (.waitHelp hstack hfind) stack_calls_self (by simp)
  · exact canMove_of_step hstack (.sleep hstack) stack_calls_self (by simp)

/-- The thread that holds a lock goes on. -/
theorem Awake.holder_canMove (h : Awake s) {q : ℕ} (hholder : (s.query q).holder = some t) :
    CanMove s t ∧ ∀ k, s.at' t ≠ .asleep k := by
  obtain ⟨k, hk, -⟩ := (h.locked q t).mp hholder
  refine ⟨canMove_of_holds hk, fun j hj => ?_⟩
  rw [hj] at hk
  exact absurd hk (by simp [View.holds])

/-- A lock is free, or its holder goes on. -/
theorem Awake.free_or (h : Awake s) (q : ℕ) : (s.query q).holder = none ∨
    ∃ u, (s.query q).holder = some u ∧ CanMove s u ∧ ∀ k, s.at' u ≠ .asleep k := by
  cases hholder : (s.query q).holder with
  | none => exact .inl rfl
  | some u => exact .inr ⟨u, rfl, h.holder_canMove hholder⟩

/-- **A thread in a call goes on, unless it sleeps or a lock it takes is held by one that does.** -/
theorem Awake.canMove_or (h : Awake s) (hstack : s.stack t = frame :: rest)
    (hawake : ∀ k, s.at' t ≠ .asleep k) :
    CanMove s t ∨ ∃ u k, frame.stage = some k ∧ (s.queryOf k).holder = some u ∧ CanMove s u ∧
      ∀ k, s.at' u ≠ .asleep k := by
  have next {frames : List (Frame π)} (hnext : frame.next = some frames)
      (hne : frames ++ rest ≠ frame :: rest) : CanMove s t :=
    canMove_of_step hstack (.next hstack hnext) stack_calls_self hne
  cases frame with
  | inOrder o len i =>
    obtain hlt | hle := Nat.lt_or_ge (i + 1) len
    · exact .inl (canMove_of_step hstack (.inOrderNext hstack hlt) stack_calls_self (by simp))
    · exact .inl (canMove_of_step hstack (.inOrderEnd hstack hle) stack_calls_self (by simp))
  | run k previous point =>
    cases point with
    | notify => exact .inl (canMove_of_step hstack (.notifyOpened hstack) stack_calls_self (by simp))
    | spread | help | finish => exact .inl (next rfl (by simp))
    | wait point =>
      cases point with
      | lock =>
        refine (h.free_or (s.stage k).query).imp (fun hfree => ?_) fun ⟨u, hu⟩ => ⟨u, k, rfl, hu⟩
        exact canMove_of_step hstack (.waitLock hstack hfree) stack_calls_self (by simp)
      | check | scan | sleep => exact .inl (canMove_of_holds (by rw [at_of_stack hstack]; rfl))
      | asleep => exact absurd (at_of_stack hstack) (hawake k)
    | close =>
      refine (h.free_or (s.stage k).query).imp (fun hfree => ?_) fun ⟨u, hu⟩ => ⟨u, k, rfl, hu⟩
      exact canMove_of_step hstack (.close hstack hfree) stack_calls_self (by simp)
    | take => exact .inl (canMove_of_step hstack (.take hstack) stack_calls_self (by simp))
  | helper k previous point =>
    cases point with
    | spread | help => exact .inl (next rfl (by simp))
    | leave => exact .inl (canMove_of_step hstack (.leave hstack) stack_calls_self (by simp))
  | spread k point =>
    cases point with
    | load tries =>
      cases tries with
      | zero => exact .inl (next rfl (by simp))
      | succ tries =>
        rcases Nat.lt_or_ge (s.stage k).next (s.stage k).len with hlt | hle
        · exact .inl (canMove_of_step hstack (.spreadLoad hstack hlt) stack_calls_self (by simp))
        · exact .inl (canMove_of_step hstack (.spreadNone hstack hle) stack_calls_self (by simp))
    | reserve tries =>
      rcases lt_or_ge 0 (s.stage k).unspawned with hlt | hle
      · exact .inl (canMove_of_step hstack (.spreadSpawn hstack hlt) stack_calls_self (by simp))
      · exact .inl (canMove_of_step hstack (.spreadSpent hstack hle) stack_calls_self (by simp))
  | help k point =>
    cases point with
    | claim =>
      rcases Nat.lt_or_ge (s.stage k).next (s.stage k).len with hlt | hle
      · exact .inl (canMove_of_step hstack (.claim hstack hlt) stack_calls_self (by simp))
      · exact .inl (canMove_of_step hstack (.claimNone hstack hle) stack_calls_self (by simp))
    | item i => exact .inl (canMove_of_step hstack (.itemReturns hstack) stack_calls_self (by simp))
    | keepFirst i panic =>
      exact .inl (canMove_of_step hstack (.keepFirst hstack) stack_calls_self (by simp))
    | settle i =>
      refine .inl (canMove_of_step hstack (.settle hstack) stack_calls_self ?_)
      split <;> simp
    | lock =>
      refine (h.free_or (s.stage k).query).imp (fun hfree => ?_) fun ⟨u, hu⟩ => ⟨u, k, rfl, hu⟩
      exact canMove_of_step hstack (.notifyLock hstack hfree) stack_calls_self (by simp)
    | notify => exact .inl (canMove_of_step hstack (.notifyFinished hstack) stack_calls_self (by simp))

/-- A thread is in an item of a stage, or is to wake those asleep on it. -/
def Settles (s : State τ π) (k : ℕ) (u : τ) : Prop :=
  runningIn k (s.stack u) ≠ [] ∨ s.at' u = .mustLock k ∨ s.at' u = .mustNotify k

/-- A thread that is awake and can go on, or waits for a lock whose holder is and can. -/
def GoesOn (s : State τ π) (u : τ) : Prop :=
  (∀ j, s.at' u ≠ .asleep j) ∧
    (CanMove s u ∨ ∃ w k, (s.queryOf k).holder = some w ∧ CanMove s w ∧ ∀ j, s.at' w ≠ .asleep j)

/-- **Behind every sleeper someone goes on**: those it waits for lead to one whose stage a thread that goes on settles,
by induction on how late its fork was opened. -/
theorem Awake.progress (h : Awake s) (hsound : Sound s) (hasleep : s.at' t = .asleep k) :
    ∃ v j u, ReflTransGen (WaitsFor s) t v ∧ s.at' v = .asleep j ∧ Settles s j u ∧ GoesOn s u := by
  have goesOn {u : τ} (hne : s.stack u ≠ []) (hawake : ∀ j, s.at' u ≠ .asleep j) : GoesOn s u := by
    obtain ⟨f, rest, hstack⟩ := List.exists_cons_of_ne_nil hne
    rcases h.canMove_or hstack hawake with hmove | ⟨w, j, -, hholder, hw⟩
    · exact ⟨hawake, .inl hmove⟩
    · exact ⟨hawake, .inr ⟨w, j, hholder, hw⟩⟩
  have hlt {t : τ} {k : ℕ} (hk : s.at' t = .asleep k) : k < s.stages := by
    obtain ⟨f, rest, hstack, hf⟩ := stack_of_view (.inr hk)
    exact hsound.known.top hstack hf
  induction hn : s.stages - k using Nat.strong_induction_on generalizing t k with
  | _ n ih =>
    rcases Nat.eq_zero_or_pos (s.stage k).unfinished with hzero | hpos
    · obtain ⟨u, hu⟩ := h.finished t k hasleep hzero
      refine ⟨t, k, u, .refl, hasleep, .inr hu, goesOn (fun hnil => ?_) fun j hj => ?_⟩
      · rcases hu with hu | hu <;> exact absurd hu (by simp [State.at', hnil])
      · rcases hu with hu | hu <;> exact absurd (hu.symm.trans hj) (by simp)
    · obtain ⟨u, hrunning, hlater⟩ := h.runner hsound hasleep hpos
      by_cases hawake : ∀ j, s.at' u ≠ .asleep j
      · exact ⟨t, k, u, .refl, hasleep, .inl hrunning, goesOn (fun hnil => hrunning (by rw [hnil]; rfl)) hawake⟩
      · push Not at hawake
        obtain ⟨j, hj⟩ := hawake
        have hkj := hlater j hj
        have hjs := hlt hj
        obtain ⟨v, i, w, hchain, hv, hsettles, hw⟩ := ih (s.stages - j) (by omega) hj rfl
        exact ⟨v, i, w, .head ⟨k, hasleep, hpos, hrunning, j, hj⟩ hchain, hv, hsettles, hw⟩

/-! ## Wakes -/

/-- What a thread is at after a notify by another: asleep in another query, if asleep. -/
theorem at_notified (frames : List (Frame π)) (q : ℕ) (ht : t ≠ u) :
    (((s.notifyAll q).calls u frames).at' t = s.at' t ∧ ∀ j, s.at' t = .asleep j → (s.stage j).query ≠ q) ∨
      ((s.notifyAll q).calls u frames).at' t = .other ∧ ∃ j, s.at' t = .asleep j := by
  rw [at_calls, Function.update_of_ne ht]
  exact view_woken q t

/-- A notify by a thread wakes the others of the query. -/
theorem nobody_asleep_after {frames : List (Frame π)} (hframes : view frames = .other)
    (hj : ((s.notifyAll (s.stage k).query).calls u frames).at' t = .asleep j) :
    (s.stage j).query ≠ (s.stage k).query := by
  by_cases ht : t = u
  · rw [ht, at_calls, Function.update_self, hframes] at hj
    exact absurd hj (by simp)
  · rcases at_notified (s := s) frames (s.stage k).query ht with ⟨heq, hne⟩ | ⟨heq, -⟩
    · exact hne j (heq.symm.trans hj)
    · exact absurd (heq.symm.trans hj) (by simp)

/-- **The notify wakes everybody**: once the thread that is to notify went on, nobody of the query is
still asleep. -/
theorem nobody_asleep (hstep : Step s s') (hu : s.at' u = .mustNotify k ∨ s.at' u = .opening k)
    (hwent : s'.at' u ≠ s.at' u) (hj : s'.at' t = .asleep j) :
    (s.stage j).query ≠ (s.stage k).query := by
  have hne {v : View} (hv : s.at' u = v) (hother : v ≠ .mustNotify k ∧ v ≠ .opening k) : False :=
    hu.elim (fun hu => hother.1 (hv.symm.trans hu)) fun hu => hother.2 (hv.symm.trans hu)
  -- another thread's step leaves the notifier where it is
  have hmover {w : τ} {frames : List (Frame π)} (hstack : s'.stack = (s.calls w frames).stack) : u = w := by
    by_contra hne
    exact hwent (congrArg view ((congrFun hstack u).trans (stack_calls_of_ne hne)))
  have hnotifier {w : τ} {q : ℕ} {frames : List (Frame π)}
      (heq : s'.stack = ((s.notifyAll q).calls w frames).stack) : u = w := by
    by_contra huw
    have hat : s'.at' u = ((s.notifyAll q).calls w frames).at' u := congrArg view (congrFun heq u)
    rcases at_notified (s := s) frames q huw with ⟨hsame, -⟩ | ⟨-, j, hj⟩
    · exact hwent (hat.trans hsame)
    · exact hne hj (by simp)
  cases hstep with
  | forkInOrder hbody _ _ =>
    obtain rfl := hmover rfl
    exact (hne (view_of_mayFork hbody) (by simp)).elim
  | fork hbody _ _ =>
    obtain rfl := hmover rfl
    exact (hne (view_of_mayFork hbody) (by simp)).elim
  | start hidle _ =>
    obtain rfl := hmover rfl
    exact (hne (congrArg view hidle) (by simp)).elim
  | next hstack hnext =>
    obtain rfl := hmover rfl
    exact (hne ((at_of_stack hstack).trans (view_next hnext).1) (by simp)).elim
  | @notifyOpened w i previous rest hstack =>
    obtain rfl := hnotifier rfl
    have hview := at_of_stack hstack
    rcases hu with hu | hu
    · exact absurd (hview.symm.trans hu) (by simp [Frame.view])
    · obtain rfl : i = k := View.opening.inj (hview.symm.trans hu)
      exact nobody_asleep_after rfl hj
  | @notifyFinished w i rest hstack =>
    obtain rfl := hnotifier rfl
    have hview := at_of_stack hstack
    rcases hu with hu | hu
    · obtain rfl : i = k := View.mustNotify.inj (hview.symm.trans hu)
      exact nobody_asleep_after rfl hj
    · exact absurd (hview.symm.trans hu) (by simp [Frame.view])
  | inOrderNext hstack _ | spreadLoad hstack _ | waitOn hstack _ | waitNone hstack _
  | notifyLock hstack _ | wake hstack | itemReturns hstack | waitLock hstack _ | waitDone hstack _
  | sleep hstack | close hstack _ | spreadSpawn hstack _ | claim hstack _ | settle hstack
  | itemPanics _ hstack | keepFirst hstack | inOrderEnd hstack _ | inOrderPanic _ hstack
  | spreadNone hstack _ | leave hstack | take hstack | spreadSpent hstack _ | claimNone hstack _
  | waitHelp hstack _ =>
    obtain rfl := hmover rfl
    exact (hne (at_of_stack hstack) (by simp [Frame.view])).elim

/-- **Every reachable state is awake.** -/
theorem awake_of_reachable (h : Reachable s) : Awake s ∧ Buried s := by
  induction h with
  | refl => exact ⟨awake_init, buried_init⟩
  | tail hrun hstep ih => exact ⟨ih.1.step (sound_of_reachable hrun) ih.2 hstep, ih.2.step hstep⟩

/-- **No fork waits forever.**  In every reachable state a thread asleep on a stage with unfinished items
has some thread in one of them, which is awake or asleep on a stage opened later; so sleeping threads
wait for each other in no cycle, and those a sleeper waits for lead to one whose stage is settled by a thread that goes
on: it is awake, and can move or waits for a lock whose holder can.  And no
wake-up is lost: whenever the count of a stage is zero with a thread between its check and its sleep, or
asleep, the notify is still to come, and with it to come the lock while the thread is not yet asleep;
while a thread is between check and sleep no stage of its query is claimable or opened, and with one
claimable while it is asleep the opener's notify is to come; a thread that is to notify can go on, or
waits for a lock whose holder can; and when it went on, nobody of the query sleeps on. -/
theorem no_fork_waits_forever (s : State τ π) (hreach : Reachable s) :
    (∀ t k, s.at' t = .asleep k → 0 < (s.stage k).unfinished →
      ∃ u, runningIn k (s.stack u) ≠ [] ∧ ∀ j, s.at' u = .asleep j → k < j) ∧
    (∀ t, ¬TransGen (WaitsFor s) t t) ∧
    (∀ t k, s.at' t = .asleep k → ∃ v j u, ReflTransGen (WaitsFor s) t v ∧ s.at' v = .asleep j ∧ Settles s j u ∧
      GoesOn s u) ∧
    (∀ t k, s.at' t = .scanning k ∨ s.at' t = .sleepy k → (s.queryOf k).holder = some t ∧
      ((s.stage k).unfinished = 0 → ∃ u, s.at' u = .mustLock k)) ∧
    (∀ t k, s.at' t = .sleepy k → ∀ j ∈ (s.queryOf k).opened, (s.stage j).len ≤ (s.stage j).next) ∧
    (∀ t k, s.at' t = .asleep k → (s.stage k).unfinished = 0 →
      ∃ u, s.at' u = .mustLock k ∨ s.at' u = .mustNotify k) ∧
    (∀ t k, s.at' t = .asleep k → ∀ j ∈ (s.queryOf k).opened, (s.stage j).next < (s.stage j).len →
      ∃ u, s.at' u = .opening j) ∧
    (∀ u k, s.at' u = .mustLock k ∨ s.at' u = .mustNotify k ∨ s.at' u = .opening k →
      CanMove s u ∨ ∃ w, (s.queryOf k).holder = some w ∧ CanMove s w) ∧
    ∀ s', Step s s' → ∀ u k, s.at' u = .mustNotify k ∨ s.at' u = .opening k → s'.at' u ≠ s.at' u →
      ∀ t j, s'.at' t = .asleep j → (s.stage j).query ≠ (s.stage k).query := by
  have hsound := sound_of_reachable hreach
  have h := (awake_of_reachable hreach).1
  refine ⟨fun t k hk hpos => h.runner hsound hk hpos, fun t => not_waitsFor_self hsound,
    fun t k hk => h.progress hsound hk, fun t k hk => ⟨?_, fun hzero => h.between t k hk hzero⟩,
    h.exhausted, h.finished, h.opened, fun u k hu => ?_,
    fun s' hstep u k hu hwent t j hj => nobody_asleep hstep hu hwent hj⟩
  · refine (h.locked _ t).mpr ⟨k, ?_, rfl⟩
    rcases hk with hk | hk
    · rw [hk]
      rfl
    · rw [hk]
      rfl
  · cases hstack : s.stack u with
    | nil => exact absurd hu (by simp [State.at', hstack])
    | cons f rest =>
      have hawake (j : ℕ) : s.at' u ≠ .asleep j := by
        rcases hu with hu | hu | hu <;> simp [hu]
      rcases h.canMove_or hstack hawake with hmove | ⟨w, j, hj, hw, hmove, -⟩
      · exact .inl hmove
      · obtain rfl : k = j := Option.some.inj ((stage_of_notifying hstack hu).symm.trans hj)
        exact .inr ⟨w, hw, hmove⟩

end Waiting

/-- A helper is in the first of two items; the fork's thread ran the second and sleeps. -/
theorem no_fork_waits_forever_two : ∃ s : State Bool Unit, s.at' true = .asleep 0 ∧
    (s.stage 0).unfinished = 1 ∧ ∃ u, runningIn 0 (s.stack u) ≠ [] ∧ ∀ j, s.at' u = .asleep j → 0 < j := by
  have run {s s' : State Bool Unit} (h : Reachable s) (hstep : Step s s') : Reachable s' := h.tail hstep
  have h : Reachable (State.init : State Bool Unit) := .refl
  have h := run h (@Step.fork _ _ _ _ true 2 2 trivial (by decide) rfl)
  have h := run h (.notifyOpened (t := true) rfl)
  have h := run h (.next (t := true) rfl rfl)
  have h := run h (.spreadLoad (t := true) rfl (by decide))
  have h := run h (.spreadSpawn (t := true) rfl (by decide))
  have h := run h (.spreadLoad (t := true) rfl (by decide))
  have h := run h (.spreadSpent (t := true) rfl (by decide))
  have h := run h (.start (t := false) (j := 0) rfl rfl)
  have h := run h (.next (t := false) rfl rfl)
  have h := run h (.spreadLoad (t := false) rfl (by decide))
  have h := run h (.spreadSpent (t := false) rfl (by decide))
  have h := run h (.next (t := false) rfl rfl)
  have h := run h (.claim (t := false) rfl (by decide))
  have h := run h (.next (t := true) rfl rfl)
  have h := run h (.claim (t := true) rfl (by decide))
  have h := run h (.itemReturns (t := true) rfl)
  have h := run h (.settle (t := true) rfl)
  have h := run h (.claimNone (t := true) rfl (by decide))
  have h := run h (.next (t := true) rfl rfl)
  have h := run h (.claimNone (t := true) rfl (by decide))
  have h := run h (.waitLock (t := true) rfl rfl)
  have h := run h (.waitOn (t := true) rfl (by decide))
  have h := run h (.waitNone (t := true) rfl rfl)
  have h := run h (.sleep (t := true) rfl)
  exact ⟨_, rfl, rfl, (no_fork_waits_forever _ h).1 true 0 rfl (by decide)⟩

end Parallel

end QueryEngine
