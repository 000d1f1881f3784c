import Archinix.Foundation.TransitionSystem

/-!
# The thread pool

`thread-pool.cc`: a queue of work items, executed by the thread that calls
`process()` and by workers that `enqueue` starts on demand.  The state lock makes
each critical section one step; between them the threads interleave freely, items
enqueue further items and throw what they like, and a wait may end without a
notification.

What holds of it is in `ThreadPoolInvariant` and `ThreadPoolRuns`.
-/

namespace Archinix
namespace Util
namespace ThreadPool

open Foundation

variable {ε : Type}

/-- Where a thread is. -/
inductive Pc (ε : Type) where
  /-- The calling thread, outside `process()`. -/
  | calling
  /-- In `doWork`, about to take the lock.  After an item (`didWork`), with what the item
  threw (`exc`). -/
  | top (ran : Option (Option ε))
  /-- In `state.wait(work)`. -/
  | waiting
  /-- Its wait has ended; it has to take the lock again. -/
  | woken
  /-- Running a work item, without the lock. -/
  | running (item : Nat)
  /-- A worker whose `doWork` has returned. -/
  | exited
  /-- `process()` after `doWork(true)`. -/
  | checking
  /-- In `shutdown()`: for the exception that `process()` is to rethrow, or for the
  destructor. -/
  | shutdown (rethrow : Option ε)
  | notifying (rethrow : Option ε) (workers : Nat)
  | joining (rethrow : Option ε) (workers : Nat)
  /-- `process()` has returned. -/
  | returned
  /-- `process()` has thrown. -/
  | rethrown (e : ε)
  | destroyed
  deriving DecidableEq

namespace Pc

/-- `notify_all` for one thread. -/
def wake : Pc ε → Pc ε
  | .waiting => .woken
  | pc => pc

def isWaiting : Pc ε → Bool
  | .waiting => true
  | _ => false

def isExited : Pc ε → Bool
  | .exited => true
  | _ => false

/-- The threads `active` counts: from the start of an item until the lock is held again. -/
def isActive : Pc ε → Bool
  | .running _ => true
  | .top (some _) => true
  | _ => false

def isRunning (item : Nat) : Pc ε → Bool
  | .running i => i == item
  | _ => false

/-- The thread is alive and blocked neither in a wait nor in a join; nor is it outside
the pool. -/
def isAwake : Pc ε → Bool
  | .top _ => true
  | .woken => true
  | .running _ => true
  | .checking => true
  | .shutdown _ => true
  | .notifying _ _ => true
  | _ => false

/-- Where `enqueue` can be called. -/
def mayEnqueue : Pc ε → Bool
  | .calling => true
  | .running _ => true
  | _ => false

/-- The calling thread, once `shutdown()` has set `quit`. -/
def isReaping : Pc ε → Bool
  | .notifying _ _ => true
  | .joining _ _ => true
  | .destroyed => true
  | _ => false

/-- After `shutdown()`. -/
def finished : Option ε → Pc ε
  | some e => .rethrown e
  | none => .destroyed

end Pc

/-- The pool: `ThreadPool::State`, `maxThreads` and `quit`; its threads, the calling
thread first; and what has happened to the items, which are numbered as they are
enqueued. -/
structure State (ε : Type) where
  maxThreads : Nat
  pending : List Nat
  active : Nat
  exception : Option ε
  /-- The size of `state->workers`. -/
  workers : Nat
  draining : Bool
  quit : Bool
  threads : List (Pc ε)
  enqueued : Nat
  started : List Nat
  finished : List Nat
  thrown : List ε
  deriving DecidableEq

inductive Event (ε : Type) where
  /-- `enqueue` called by a thread; `notify_one` wakes this thread. -/
  | enqueue (thread : Nat) (wake : Option Nat)
  /-- The critical section of `doWork`. -/
  | doWork (thread : Nat)
  /-- A work item returns, or throws. -/
  | itemReturn (thread : Nat)
  | itemThrow (thread : Nat) (e : ε)
  /-- A wait ends without a notification. -/
  | spurious (thread : Nat)
  /-- The calling thread enters `process()`. -/
  | process
  /-- `process()` looks at `state->exception`. -/
  | check
  /-- The calling thread enters the destructor. -/
  | destroy
  /-- The critical section of `shutdown()`, its `notify_all`, and its joins. -/
  | quit
  | notifyAll
  | join
  deriving DecidableEq

namespace State

def thread? (s : State ε) (thread : Nat) : Option (Pc ε) := s.threads[thread]?

def goto (s : State ε) (thread : Nat) (pc : Pc ε) : State ε :=
  { s with threads := s.threads.set thread pc }

/-- `work.notify_all()`. -/
def notifyAll (s : State ε) : State ε :=
  { s with threads := s.threads.map Pc.wake }

/-- `work.notify_one()`, which wakes one of the waiting threads if there is any. -/
def notifyOne (s : State ε) : Option Nat → Option (State ε)
  | some thread =>
      match s.thread? thread with
      | some .waiting => some (s.goto thread .woken)
      | _ => none
  | none => if s.threads.any Pc.isWaiting then none else some s

/-- `enqueue`, under the lock and past its test of `quit`. -/
def push (s : State ε) : State ε :=
  let s := { s with pending := s.pending ++ [s.enqueued], enqueued := s.enqueued + 1 }
  if s.workers + 1 < s.pending.length ∧ s.workers + 1 < s.maxThreads then
    { s with workers := s.workers + 1, threads := s.threads ++ [.top none] }
  else s

/-- The first half of the critical section of `doWork`: the accounts of the item just
run. -/
def account (s : State ε) : Option (Option ε) → State ε
  | none => s
  | some none => { s with active := s.active - 1 }
  | some (some e) =>
      match s.exception with
      | none => { s with active := s.active - 1, exception := some e, quit := true }.notifyAll
      | some _ => { s with active := s.active - 1 }

/-- Where a thread goes when its `doWork` returns. -/
def leave (thread : Nat) : Pc ε := if thread = 0 then .checking else .exited

/-- The second half: one round of the inner loop, up to a wait, a work item, or the end. -/
def next (s : State ε) (thread : Nat) : State ε :=
  if s.quit then s.goto thread (leave thread)
  else
    match s.pending with
    | item :: pending =>
        { s with
          pending := pending
          active := s.active + 1
          started := s.started ++ [item] }.goto thread (.running item)
    | [] =>
        if s.active = 0 ∧ s.draining then
          { s with quit := true }.notifyAll.goto thread (leave thread)
        else s.goto thread .waiting

end State

/-- One step; `none` where the event cannot happen. -/
def step (s : State ε) : Event ε → Option (State ε)
  | .enqueue thread wake =>
      match s.thread? thread with
      | some pc =>
          if pc.mayEnqueue then
            -- `ThreadPoolShutDown` is thrown to the caller: the item may catch it, or throw it
            if s.quit then some s else s.push.notifyOne wake
          else none
      | none => none
  | .doWork thread =>
      match s.thread? thread with
      | some (.top ran) => some ((s.account ran).next thread)
      | some .woken => some (s.next thread)
      | _ => none
  | .itemReturn thread =>
      match s.thread? thread with
      | some (.running item) =>
          some ({ s with finished := s.finished ++ [item] }.goto thread (.top (some none)))
      | _ => none
  | .itemThrow thread e =>
      match s.thread? thread with
      | some (.running item) =>
          some ({ s with finished := s.finished ++ [item], thrown := s.thrown ++ [e] }.goto thread
            (.top (some (some e))))
      | _ => none
  | .spurious thread =>
      match s.thread? thread with
      | some .waiting => some (s.goto thread .woken)
      | _ => none
  | .process =>
      match s.thread? 0 with
      | some .calling => some ({ s with draining := true }.goto 0 (.top none))
      | _ => none
  | .check =>
      match s.thread? 0 with
      | some .checking =>
          match s.exception with
          | some e => some (s.goto 0 (.shutdown (some e)))
          | none => some (s.goto 0 .returned)
      | _ => none
  | .destroy =>
      match s.thread? 0 with
      | some .calling => some (s.goto 0 (.shutdown none))
      | some .returned => some (s.goto 0 (.shutdown none))
      | some (.rethrown _) => some (s.goto 0 (.shutdown none))
      | _ => none
  | .quit =>
      match s.thread? 0 with
      | some (.shutdown rethrow) =>
          if s.workers = 0 then some ({ s with quit := true }.goto 0 (.finished rethrow))
          else some ({ s with quit := true, workers := 0 }.goto 0 (.notifying rethrow s.workers))
      | _ => none
  | .notifyAll =>
      match s.thread? 0 with
      | some (.notifying rethrow workers) => some (s.notifyAll.goto 0 (.joining rethrow workers))
      | _ => none
  | .join =>
      match s.thread? 0 with
      | some (.joining rethrow workers) =>
          if (s.threads.tail.take workers).all Pc.isExited then some (s.goto 0 (.finished rethrow))
          else none
      | _ => none

/-- The constructor's choice of `maxThreads`. -/
def maxThreads (_maxThreads hardwareConcurrency : Nat) : Nat :=
  if _maxThreads = 0 then (if hardwareConcurrency = 0 then 1 else hardwareConcurrency)
  else _maxThreads

/-- A pool just constructed. -/
def initial (maxThreads : Nat) : State ε where
  maxThreads := maxThreads
  pending := []
  active := 0
  exception := none
  workers := 0
  draining := false
  quit := false
  threads := [.calling]
  enqueued := 0
  started := []
  finished := []
  thrown := []

/-- A pool of any size, on any machine. -/
def system : TransitionSystem (State ε) (Event ε) :=
  .ofStep (fun s => ∃ requested hardware, s = initial (maxThreads requested hardware)) step

end ThreadPool
end Util
end Archinix
