import Archinix.Foundation.TransitionSystem
import Mathlib.Data.UInt

/-!
# The pool of dedup swaps

`local-store.cc`, `DedupSwapPool`: a bounded queue of jobs that one thread posts and
`threads` consumers execute.  The mutex makes each critical section one step; the
notifications, the swaps and the two atomic additions happen outside it, and a wait may
end without a notification.

`post` and `finish()` are not called at the same time: `AsyncFileHasher::finish` joins
the thread that posts before it calls `pool.finish`, so one program counter serves for
both.

What holds of every run is in `DedupSwapPoolRuns`.
-/

namespace Archinix
namespace Store
namespace DedupSwapPool

open Foundation

structure Job where
  link : String
  key : String
  size : UInt64
  deriving DecidableEq

/-- Counts of files and of their bytes. -/
abbrev Totals := UInt64 × UInt64

def Job.worth (job : Job) : Totals := (1, job.size)

/-- Where a consumer is in `run`. -/
inductive Consumer where
  /-- About to take the lock, and to look at the predicate of the wait. -/
  | locking
  | waiting
  /-- It has popped from a full queue: about to notify the producer. -/
  | notifyPop (job : Job)
  | swapping (job : Job)
  /-- The swap has replaced the copy, and nothing is counted yet. -/
  | swapped (job : Job)
  /-- The file is counted, its bytes are not. -/
  | counted (job : Job)
  | exited
  deriving DecidableEq

/-- Where the thread is that posts, and that calls `finish` afterwards. -/
inductive Producer where
  | idle
  /-- In `post`, about to take the lock. -/
  | pushing (job : Job)
  | waiting (job : Job)
  | notifyPush
  /-- In `finish`, given these totals. -/
  | closing (totals : Totals)
  | notifyClosed (totals : Totals)
  | joining (totals : Totals)
  | adding (totals : Totals)
  /-- `finish` has returned; it may be called again. -/
  | finished
  deriving DecidableEq

namespace Consumer

/-- `cvPush.notify_all()` for one consumer. -/
def wake : Consumer → Consumer
  | .waiting => .locking
  | pc => pc

/-- The job it has taken and not yet executed. -/
def held : Consumer → Multiset Job
  | .notifyPop job => {job}
  | .swapping job => {job}
  | _ => 0

/-- What it has still to add to the pool's counters. -/
def owed : Consumer → Totals
  | .swapped job => job.worth
  | .counted job => (0, job.size)
  | _ => 0

end Consumer

namespace Producer

/-- `cvPop.notify_one()`: nobody else waits there. -/
def wake : Producer → Producer
  | .waiting job => .pushing job
  | pc => pc

/-- Between two calls of `post`, or in one. -/
def isPosting : Producer → Bool
  | .idle => true
  | .pushing _ => true
  | .waiting _ => true
  | .notifyPush => true
  | _ => false

/-- In `finish`, from its critical section to the last of its joins. -/
def isReaping : Producer → Bool
  | .notifyClosed _ => true
  | .joining _ => true
  | _ => false

end Producer

/-- The pool, and what has happened: the jobs that were posted, those whose swap was
tried, those it replaced; and what each call of `finish` was given and left. -/
structure State where
  workers : List Consumer
  producer : Producer
  jobs : List Job
  closed : Bool
  swappedFiles : UInt64
  swappedBytes : UInt64
  posted : List Job
  executed : List Job
  succeeded : List Job
  finishes : List (Totals × Totals)
  deriving DecidableEq

inductive Event where
  /-- `post` is called. -/
  | post (job : Job)
  /-- The critical section of `post`, up to its wait or its end. -/
  | push
  /-- `cvPush.notify_all()` of `post`. -/
  | notifyPush
  /-- `finish` is called. -/
  | finish (totals : Totals)
  | close
  | notifyClosed
  | join
  | add
  /-- The critical section of `run`, from the predicate of its wait. -/
  | pop (worker : Nat)
  /-- `cvPop.notify_one()`. -/
  | notifyPop (worker : Nat)
  /-- `swapForFarmLink` returns, or throws. -/
  | swap (worker : Nat) (result : Option Bool)
  | addFile (worker : Nat)
  | addBytes (worker : Nat)
  /-- A wait ends without a notification. -/
  | spurious (worker : Nat)
  | spuriousPop
  deriving DecidableEq

def Event.isSpurious : Event → Bool
  | .spurious _ => true
  | .spuriousPop => true
  | _ => false

def maxQueued : Nat := 64

namespace State

def goto (s : State) (worker : Nat) (pc : Consumer) : State :=
  { s with workers := s.workers.set worker pc }

/-- `cvPush.notify_all()`. -/
def notifyAll (s : State) : State :=
  { s with workers := s.workers.map Consumer.wake }

/-- `post`, with the lock. -/
def push (s : State) (job : Job) : State :=
  if s.jobs.length < maxQueued then
    let s := { s with jobs := s.jobs ++ [job], posted := s.posted ++ [job] }
    if s.jobs.length ≤ s.workers.length then { s with producer := .notifyPush }
    else { s with producer := .idle }
  else { s with producer := .waiting job }

/-- One round of `run`, with the lock. -/
def pop (s : State) (worker : Nat) : State :=
  match s.jobs with
  | [] => if s.closed then s.goto worker .exited else s.goto worker .waiting
  | job :: jobs =>
      let s := { s with jobs := jobs }
      if s.jobs.length = maxQueued - 1 then s.goto worker (.notifyPop job)
      else s.goto worker (.swapping job)

end State

/-- One step; `none` where the event cannot happen. -/
def step (s : State) : Event → Option State
  | .post job =>
      match s.producer with
      | .idle => some { s with producer := .pushing job }
      | _ => none
  | .push =>
      match s.producer with
      | .pushing job => some (s.push job)
      | _ => none
  | .notifyPush =>
      match s.producer with
      | .notifyPush => some { s.notifyAll with producer := .idle }
      | _ => none
  | .finish totals =>
      match s.producer with
      | .idle => some { s with producer := .closing totals }
      | .finished => some { s with producer := .closing totals }
      | _ => none
  | .close =>
      match s.producer with
      | .closing totals => some { s with closed := true, producer := .notifyClosed totals }
      | _ => none
  | .notifyClosed =>
      match s.producer with
      | .notifyClosed totals => some { s.notifyAll with producer := .joining totals }
      | _ => none
  | .join =>
      match s.producer with
      | .joining totals =>
          if s.workers.all (· == .exited) then some { s with producer := .adding totals } else none
      | _ => none
  | .add =>
      match s.producer with
      | .adding totals =>
          some { s with
            swappedFiles := 0
            swappedBytes := 0
            producer := .finished
            finishes := s.finishes ++
              [(totals, totals.1 + s.swappedFiles, totals.2 + s.swappedBytes)] }
      | _ => none
  | .pop worker =>
      match s.workers[worker]? with
      | some .locking => some (s.pop worker)
      | _ => none
  | .notifyPop worker =>
      match s.workers[worker]? with
      | some (.notifyPop job) =>
          some { s.goto worker (.swapping job) with producer := s.producer.wake }
      | _ => none
  | .swap worker result =>
      match s.workers[worker]? with
      | some (.swapping job) =>
          let s := { s with executed := s.executed ++ [job] }
          match result with
          | some true =>
              some ({ s with succeeded := s.succeeded ++ [job] }.goto worker (.swapped job))
          | some false => some (s.goto worker .locking)
          -- caught: the copy stays for `optimisePath()`
          | none => some (s.goto worker .locking)
      | _ => none
  | .addFile worker =>
      match s.workers[worker]? with
      | some (.swapped job) =>
          some ({ s with swappedFiles := s.swappedFiles + 1 }.goto worker (.counted job))
      | _ => none
  | .addBytes worker =>
      match s.workers[worker]? with
      | some (.counted job) =>
          some ({ s with swappedBytes := s.swappedBytes + job.size }.goto worker .locking)
      | _ => none
  | .spurious worker =>
      match s.workers[worker]? with
      | some .waiting => some (s.goto worker .locking)
      | _ => none
  | .spuriousPop =>
      match s.producer with
      | .waiting job => some { s with producer := .pushing job }
      | _ => none

/-- A pool just constructed. -/
def initial (threads : Nat) : State where
  workers := List.replicate threads .locking
  producer := .idle
  jobs := []
  closed := false
  swappedFiles := 0
  swappedBytes := 0
  posted := []
  executed := []
  succeeded := []
  finishes := []

def system (threads : Nat) : TransitionSystem State Event :=
  .ofStep (· = initial threads) step

end DedupSwapPool
end Store
end Archinix
