import Mathlib

/-!
# Parallel/Stages — a fork-join whose waiting threads run items of their own query

A thread that forks runs the items itself; pool threads only help; and a thread that waits runs items
of its own query's open forks, so its wait may lie under theirs.  A thread is its stack of calls, and
a step is one atomic action of the call on top: a claim, a count, a push or a retain under the
query's lock, a check, a sleep, a notify.  Helper jobs may start late or never, an item may fork, and
it may panic.
-/

namespace QueryEngine

namespace Parallel

/-! ## Calls -/

/-- Where `Stage::help` is. -/
inductive HelpPoint (π : Type)
  | claim
  /-- Inside the task, at an index. -/
  | item (index : ℕ)
  | keepFirst (index : ℕ) (panic : π)
  | settle (index : ℕ)
  /-- The last item finished: `Query::notify` takes the lock, and then wakes the waiters. -/
  | lock
  | notify

/-- Where `Stage::wait` is. -/
inductive WaitPoint
  | lock
  | check
  | scan
  /-- Nothing is claimable; the lock is still held. -/
  | sleep
  | asleep

/-- Where `run` is, its stage opened.  A call is behind `help` while the call's frame is above. -/
inductive RunPoint
  | notify
  | spread
  | help
  /-- `Finish` is dropped: the unclaimed items first, then the wait, then the stage is closed. -/
  | finish
  | wait (point : WaitPoint)
  | close
  | take

/-- Where a helper's job is. -/
inductive HelperPoint
  | spread
  | help
  | leave

/-- Where `Stage::spread` is, with the helpers it may still spawn. -/
inductive SpreadPoint
  | load (tries : ℕ)
  | reserve (tries : ℕ)

/-- A call on a thread's stack. -/
inductive Frame (π : Type)
  /-- A fork without helpers: its items run in order. -/
  | inOrder (order len index : ℕ)
  /-- A fork; `previous` is the query its thread was in. -/
  | run (stage : ℕ) (previous : Option ℕ) (point : RunPoint)
  | helper (stage : ℕ) (previous : Option ℕ) (point : HelperPoint)
  | spread (stage : ℕ) (point : SpreadPoint)
  | help (stage : ℕ) (point : HelpPoint π)

namespace Frame

variable {π : Type}

/-- The stage a call is about. -/
def stage : Frame π → Option ℕ
  | inOrder _ _ _ => none
  | run k _ _ | helper k _ _ | spread k _ | help k _ => some k

/-- The stage whose fork a call is. -/
def forked : Frame π → Option ℕ
  | run k _ _ => some k
  | _ => none

/-- The item of a stage a call has claimed and not finished. -/
def running (k : ℕ) : Frame π → Option ℕ
  | help j (.item i) | help j (.keepFirst i _) | help j (.settle i) => if j = k then some i else none
  | _ => none

/-- What a call does next where it only calls or returns: the calls that stand in its place. -/
def next : Frame π → Option (List (Frame π))
  | run k previous .spread => some [spread k (.load 2), run k previous .help]
  | run k previous .help => some [help k .claim, run k previous .finish]
  | run k previous .finish => some [help k .claim, run k previous (.wait .lock)]
  | helper k previous .spread => some [spread k (.load 2), helper k previous .help]
  | helper k previous .help => some [help k .claim, helper k previous .leave]
  | spread _ (.load 0) => some []
  | _ => none

end Frame

/-! ## States -/

/-- One fork: the items still to claim, and the ones claimed but not finished. -/
structure Stage (π : Type) where
  len : ℕ
  next : ℕ
  /-- Helpers still to spawn. -/
  unspawned : ℤ
  unfinished : ℕ
  query : ℕ
  /-- The first panic of any item. -/
  panic : Option π

/-- The forks open under one root fork. -/
structure Query (τ : Type) where
  opened : List ℕ
  /-- The thread that holds the lock of `opened` between two of its steps. -/
  holder : Option τ

/-- What happened to a stage, for what is said of it: none of it is read by a step. -/
structure Trace (τ π : Type) where
  opener : Option τ
  /-- Each call of the task: the index, and the thread that claimed it. -/
  calls : List (ℕ × τ)
  finished : List ℕ
  panicked : List ℕ
  kept : List π
  /-- What `run` ended with: the panic it raised, if it raised one. -/
  returned : Option (Option π)

/-- What happened to a fork without helpers: none of it is read by a step. -/
structure OrderTrace (τ π : Type) where
  len : ℕ
  /-- Each call of the task: the index, and the thread that ran it. -/
  calls : List (ℕ × τ)
  /-- What `run` ended with: the panic that unwound it, if one did. -/
  returned : Option (Option π)

/-- The threads' calls and what they share. -/
structure State (τ π : Type) where
  /-- The stages opened so far; each is known by its place in the order of opening. -/
  stages : ℕ
  stage : ℕ → Stage π
  trace : ℕ → Trace τ π
  queries : ℕ
  query : ℕ → Query τ
  /-- The query a thread runs items of. -/
  current : τ → Option ℕ
  stack : τ → List (Frame π)
  /-- Helpers spawned and not started, by stage. -/
  jobs : List ℕ
  /-- The forks without helpers so far; each is known by its place in their order. -/
  orders : ℕ
  order : ℕ → OrderTrace τ π

variable {τ π : Type}

/-- A stage nobody opened. -/
def Stage.none : Stage π := ⟨0, 0, 0, 0, 0, .none⟩

/-- The trace of a stage that nothing has run of. -/
def Trace.none : Trace τ π := ⟨.none, [], [], [], [], .none⟩

/-- A fork without helpers that nobody made. -/
def OrderTrace.none : OrderTrace τ π := ⟨0, [], .none⟩

/-- Before any fork. -/
def State.init : State τ π :=
  ⟨0, fun _ => .none, fun _ => .none, 0, fun _ => ⟨[], .none⟩, fun _ => .none, fun _ => [], [], 0,
    fun _ => .none⟩

/-- Helpers of a fork: one fewer than its items or the pool's threads. -/
def helpers (len threads : ℕ) : ℕ := min len threads - 1

/-- Whether a thread may fork: it is in an item, or in no query's. -/
def MayFork : List (Frame π) → Prop
  | [] => True
  | .inOrder _ _ _ :: _ => True
  | .help _ (.item _) :: _ => True
  | _ => False

namespace State

variable [DecidableEq τ] (s : State τ π)

/-- A thread with other calls. -/
def calls (t : τ) (frames : List (Frame π)) : State τ π :=
  { s with stack := Function.update s.stack t frames }

/-- The state with one stage changed. -/
def setStage (k : ℕ) (stage : Stage π) : State τ π :=
  { s with stage := Function.update s.stage k stage }

/-- The state with one stage's trace changed. -/
def setTrace (k : ℕ) (trace : Trace τ π) : State τ π :=
  { s with trace := Function.update s.trace k trace }

/-- The state with one query changed. -/
def setQuery (q : ℕ) (query : Query τ) : State τ π :=
  { s with query := Function.update s.query q query }

/-- The state with the query a thread is in changed. -/
def setCurrent (t : τ) (query : Option ℕ) : State τ π :=
  { s with current := Function.update s.current t query }

/-- The query of a stage. -/
def queryOf (k : ℕ) : Query τ := s.query (s.stage k).query

/-- The lock of a stage's query, held by a thread or by none. -/
def hold (k : ℕ) (holder : Option τ) : State τ π :=
  s.setQuery (s.stage k).query { s.queryOf k with holder := holder }

/-- What `notify_all` makes of a thread's calls: a thread asleep checks again. -/
def woken (q : ℕ) (frames : List (Frame π)) : List (Frame π) :=
  match frames with
  | .run k previous (.wait .asleep) :: rest =>
    if (s.stage k).query = q then .run k previous (.wait .lock) :: rest else frames
  | _ => frames

/-- Every thread asleep in a query is woken. -/
def notifyAll (q : ℕ) : State τ π := { s with stack := fun t => s.woken q (s.stack t) }

/-- A fork opens its stage, in its thread's query or in one of its own. -/
def fork (t : τ) (len threads : ℕ) : State τ π :=
  let q := (s.current t).getD s.queries
  { s with
    stages := s.stages + 1
    stage := Function.update s.stage s.stages ⟨len, 0, helpers len threads, len, q, .none⟩
    trace := Function.update s.trace s.stages ⟨some t, [], [], [], [], .none⟩
    queries := if (s.current t).isSome then s.queries else s.queries + 1
    query := Function.update s.query q
      { s.query q with opened := (s.query q).opened ++ [s.stages] }
    current := Function.update s.current t (some q)
    stack := Function.update s.stack t (.run s.stages (s.current t) .notify :: s.stack t) }

end State

/-! ## Steps -/

/-- One atomic action of one thread. -/
inductive Step [DecidableEq τ] (s : State τ π) : State τ π → Prop
  /-- A fork with no helper runs its items on its own thread. -/
  | forkInOrder {t : τ} {len threads : ℕ} (hbody : MayFork (s.stack t)) (hlen : 0 < len)
      (hhelpers : helpers len threads = 0) :
      Step s { s.calls t (.inOrder s.orders len 0 :: s.stack t) with
        orders := s.orders + 1
        order := Function.update s.order s.orders ⟨len, [(0, t)], none⟩ }
  | fork {t : τ} {len threads : ℕ} (hbody : MayFork (s.stack t)) (hhelpers : 0 < helpers len threads)
      (hfree : (s.query ((s.current t).getD s.queries)).holder = none) :
      Step s (s.fork t len threads)
  | inOrderNext {t : τ} {o len i : ℕ} {rest : List (Frame π)}
      (hstack : s.stack t = .inOrder o len i :: rest) (hlt : i + 1 < len) :
      Step s { s.calls t (.inOrder o len (i + 1) :: rest) with
        order := Function.update s.order o
          { s.order o with calls := (s.order o).calls ++ [(i + 1, t)] } }
  | inOrderEnd {t : τ} {o len i : ℕ} {rest : List (Frame π)}
      (hstack : s.stack t = .inOrder o len i :: rest) (hlast : len ≤ i + 1) :
      Step s { s.calls t rest with
        order := Function.update s.order o { s.order o with returned := some none } }
  /-- The panic of an item run in order unwinds its fork. -/
  | inOrderPanic {t : τ} {o len i : ℕ} {rest : List (Frame π)} (panic : π)
      (hstack : s.stack t = .inOrder o len i :: rest) :
      Step s { s.calls t rest with
        order := Function.update s.order o { s.order o with returned := some (some panic) } }
  /-- A pool thread starts a helper's job. -/
  | start {t : τ} {j k : ℕ} (hidle : s.stack t = []) (hjob : s.jobs[j]? = some k) :
      Step s ({ s.calls t [.helper k (s.current t) .spread] with jobs := s.jobs.eraseIdx j }.setCurrent t
        (some (s.stage k).query))
  /-- A call calls another, or returns. -/
  | next {t : τ} {frame : Frame π} {rest frames : List (Frame π)} (hstack : s.stack t = frame :: rest)
      (hnext : frame.next = some frames) : Step s (s.calls t (frames ++ rest))
  | notifyOpened {t : τ} {k : ℕ} {previous : Option ℕ} {rest : List (Frame π)}
      (hstack : s.stack t = .run k previous .notify :: rest) :
      Step s ((s.notifyAll (s.stage k).query).calls t (.run k previous .spread :: rest))
  /-- Items are unclaimed: a helper may be spawned. -/
  | spreadLoad {t : τ} {k tries : ℕ} {rest : List (Frame π)}
      (hstack : s.stack t = .spread k (.load (tries + 1)) :: rest)
      (hlt : (s.stage k).next < (s.stage k).len) :
      Step s (s.calls t (.spread k (.reserve tries) :: rest))
  | spreadNone {t : τ} {k tries : ℕ} {rest : List (Frame π)}
      (hstack : s.stack t = .spread k (.load (tries + 1)) :: rest)
      (hle : (s.stage k).len ≤ (s.stage k).next) : Step s (s.calls t rest)
  | spreadSpawn {t : τ} {k tries : ℕ} {rest : List (Frame π)}
      (hstack : s.stack t = .spread k (.reserve tries) :: rest) (hleft : 0 < (s.stage k).unspawned) :
      Step s { (s.setStage k { s.stage k with unspawned := (s.stage k).unspawned - 1 }).calls t
        (.spread k (.load tries) :: rest) with jobs := s.jobs ++ [k] }
  | spreadSpent {t : τ} {k tries : ℕ} {rest : List (Frame π)}
      (hstack : s.stack t = .spread k (.reserve tries) :: rest) (hleft : (s.stage k).unspawned ≤ 0) :
      Step s ((s.setStage k { s.stage k with unspawned := (s.stage k).unspawned - 1 }).calls t rest)
  | leave {t : τ} {k : ℕ} {previous : Option ℕ} {rest : List (Frame π)}
      (hstack : s.stack t = .helper k previous .leave :: rest) :
      Step s ((s.calls t rest).setCurrent t previous)
  /-- `next.fetch_add(1)`, below the length: the task is called. -/
  | claim {t : τ} {k : ℕ} {rest : List (Frame π)} (hstack : s.stack t = .help k .claim :: rest)
      (hlt : (s.stage k).next < (s.stage k).len) :
      Step s (((s.setStage k { s.stage k with next := (s.stage k).next + 1 }).setTrace k
        { s.trace k with calls := (s.trace k).calls ++ [((s.stage k).next, t)] }).calls t
          (.help k (.item (s.stage k).next) :: rest))
  | claimNone {t : τ} {k : ℕ} {rest : List (Frame π)} (hstack : s.stack t = .help k .claim :: rest)
      (hle : (s.stage k).len ≤ (s.stage k).next) :
      Step s ((s.setStage k { s.stage k with next := (s.stage k).next + 1 }).calls t rest)
  | itemReturns {t : τ} {k i : ℕ} {rest : List (Frame π)} (hstack : s.stack t = .help k (.item i) :: rest) :
      Step s (s.calls t (.help k (.settle i) :: rest))
  | itemPanics {t : τ} {k i : ℕ} {rest : List (Frame π)} (panic : π)
      (hstack : s.stack t = .help k (.item i) :: rest) :
      Step s ((s.setTrace k { s.trace k with panicked := (s.trace k).panicked ++ [i] }).calls t
        (.help k (.keepFirst i panic) :: rest))
  | keepFirst {t : τ} {k i : ℕ} {panic : π} {rest : List (Frame π)}
      (hstack : s.stack t = .help k (.keepFirst i panic) :: rest) :
      Step s (((s.setStage k { s.stage k with panic := (s.stage k).panic.or (some panic) }).setTrace k
        { s.trace k with kept := (s.trace k).kept ++ [panic] }).calls t (.help k (.settle i) :: rest))
  /-- The count goes down by one; whoever takes it to zero notifies. -/
  | settle {t : τ} {k i : ℕ} {rest : List (Frame π)} (hstack : s.stack t = .help k (.settle i) :: rest) :
      Step s (((s.setStage k { s.stage k with unfinished := (s.stage k).unfinished - 1 }).setTrace k
        { s.trace k with finished := (s.trace k).finished ++ [i] }).calls t
          (.help k (if (s.stage k).unfinished - 1 = 0 then .lock else .claim) :: rest))
  | notifyLock {t : τ} {k : ℕ} {rest : List (Frame π)} (hstack : s.stack t = .help k .lock :: rest)
      (hfree : (s.queryOf k).holder = none) : Step s (s.calls t (.help k .notify :: rest))
  | notifyFinished {t : τ} {k : ℕ} {rest : List (Frame π)} (hstack : s.stack t = .help k .notify :: rest) :
      Step s ((s.notifyAll (s.stage k).query).calls t (.help k .claim :: rest))
  | waitLock {t : τ} {k : ℕ} {previous : Option ℕ} {rest : List (Frame π)}
      (hstack : s.stack t = .run k previous (.wait .lock) :: rest) (hfree : (s.queryOf k).holder = none) :
      Step s ((s.hold k (some t)).calls t (.run k previous (.wait .check) :: rest))
  | waitDone {t : τ} {k : ℕ} {previous : Option ℕ} {rest : List (Frame π)}
      (hstack : s.stack t = .run k previous (.wait .check) :: rest) (hzero : (s.stage k).unfinished = 0) :
      Step s ((s.hold k none).calls t (.run k previous .close :: rest))
  | waitOn {t : τ} {k : ℕ} {previous : Option ℕ} {rest : List (Frame π)}
      (hstack : s.stack t = .run k previous (.wait .check) :: rest) (hpos : (s.stage k).unfinished ≠ 0) :
      Step s (s.calls t (.run k previous (.wait .scan) :: rest))
  /-- An open fork has an unclaimed item: this thread helps it. -/
  | waitHelp {t : τ} {k j : ℕ} {previous : Option ℕ} {rest : List (Frame π)}
      (hstack : s.stack t = .run k previous (.wait .scan) :: rest)
      (hfind : (s.queryOf k).opened.find? (fun j => decide ((s.stage j).next < (s.stage j).len)) =
        some j) :
      Step s ((s.hold k none).calls t (.help j .claim :: .run k previous (.wait .lock) :: rest))
  | waitNone {t : τ} {k : ℕ} {previous : Option ℕ} {rest : List (Frame π)}
      (hstack : s.stack t = .run k previous (.wait .scan) :: rest)
      (hfind : (s.queryOf k).opened.find? (fun j => decide ((s.stage j).next < (s.stage j).len)) =
        none) :
      Step s (s.calls t (.run k previous (.wait .sleep) :: rest))
  /-- The condition variable takes the thread and gives the lock back at once. -/
  | sleep {t : τ} {k : ℕ} {previous : Option ℕ} {rest : List (Frame π)}
      (hstack : s.stack t = .run k previous (.wait .sleep) :: rest) :
      Step s ((s.hold k none).calls t (.run k previous (.wait .asleep) :: rest))
  /-- A condition variable may wake a thread for nothing. -/
  | wake {t : τ} {k : ℕ} {previous : Option ℕ} {rest : List (Frame π)}
      (hstack : s.stack t = .run k previous (.wait .asleep) :: rest) :
      Step s (s.calls t (.run k previous (.wait .lock) :: rest))
  | close {t : τ} {k : ℕ} {previous : Option ℕ} {rest : List (Frame π)}
      (hstack : s.stack t = .run k previous .close :: rest) (hfree : (s.queryOf k).holder = none) :
      Step s ((s.setQuery (s.stage k).query
        { s.queryOf k with opened := (s.queryOf k).opened.filter fun j => j != k }).calls t
          (.run k previous .take :: rest))
  /-- The panic kept, if any, is raised again; the thread's query is what it was. -/
  | take {t : τ} {k : ℕ} {previous : Option ℕ} {rest : List (Frame π)}
      (hstack : s.stack t = .run k previous .take :: rest) :
      Step s ((((s.setStage k { s.stage k with panic := none }).setTrace k
        { s.trace k with returned := some (s.stage k).panic }).calls t rest).setCurrent t previous)

/-- The states some interleaving reaches. -/
def Reachable [DecidableEq τ] (s : State τ π) : Prop := Relation.ReflTransGen Step State.init s

end Parallel

end QueryEngine
