import Archinix.Util.HashSink

/-!
# AsyncHashSink

`local-store.cc`: a `HashSink` on a thread of its own, fed through a `BufferedSink` and a
bounded queue of recycled buffers; or the same sink called directly, on a machine with
one processor.  The mutex makes each critical section one step.  A buffer is a cell of a
heap: the queue, the free list and the threads pass its number on, and whoever fills or
reads it does so without the lock.

What holds of every run is in `AsyncHashSinkRuns`.
-/

namespace Archinix
namespace Store
namespace AsyncHashSink

open Foundation Util
open SourceToSink (bufferedWrite flush bufSize bufferedWrite_flatten flush_flatten)

/-- What the producer has called: `operator()`, `finish()` or the destructor. -/
inductive Call where
  | write
  | finish
  | destroy
  deriving DecidableEq

/-- Where the producer is, with what the call has still to write unbuffered. -/
inductive Producer where
  /-- Between two calls. -/
  | idle
  /-- About to call `writeUnbuffered` for the next chunk. -/
  | writing (data : List Bytes) (call : Call)
  /-- `producing` is assigned: about to take the lock. -/
  | pushing (data : List Bytes) (call : Call)
  /-- In `cvPop.wait`. -/
  | waiting (data : List Bytes) (call : Call)
  | notifyPush (data : List Bytes) (call : Call)
  /-- In `close()`. -/
  | closing (call : Call)
  | notifyClosed (call : Call)
  | joining (call : Call)
  /-- `finish()` has returned. -/
  | returned (result : HashResult)
  /-- `operator()` or `finish()` has thrown. -/
  | threw
  | destroyed
  deriving DecidableEq

namespace Producer

/-- `cvPop.notify_one()`: nobody but the producer waits there. -/
def wake : Producer → Producer
  | .waiting data call => .pushing data call
  | pc => pc

end Producer

/-- Where the worker is, with the buffer it has taken. -/
inductive Worker where
  /-- Not started: the sink hashes inline. -/
  | absent
  /-- About to take the lock, and to look at the predicate of the wait. -/
  | locking
  /-- In `cvPush.wait`. -/
  | waiting
  | notifyPop (chunk : Nat)
  | hashing (chunk : Nat)
  /-- Through with the buffer: about to take the lock and hand it back. -/
  | recycling (chunk : Nat)
  | exited
  deriving DecidableEq

namespace Worker

/-- `cvPush.notify_one()`: nobody but the worker waits there. -/
def wake : Worker → Worker
  | .waiting => .locking
  | pc => pc

end Worker

/-- The sink, and what has happened: the data handed to `operator()`; the buffers pushed,
those hashed, and those that the hasher threw on or left out after that, with what they
held; whether it has thrown. -/
structure State where
  threaded : Bool
  /-- The contents of the `BufferedSink`. -/
  buffer : Bytes
  inner : HashSink
  /-- The contents of every buffer there is. -/
  heap : List Bytes
  chunks : List Nat
  /-- `free_`, from its back. -/
  free : List Nat
  producing : Nat
  closed : Bool
  failure : Bool
  producer : Producer
  worker : Worker
  written : Bytes
  pushed : List (Nat × Bytes)
  hashed : List (Nat × Bytes)
  dropped : List (Nat × Bytes)
  raised : Bool
  deriving DecidableEq

inductive Event where
  /-- `operator()`, `finish()` or the destructor is called. -/
  | write (data : Bytes)
  | finish
  | destroy
  /-- The producer goes on without the lock. -/
  | produce
  /-- The same, where the inline hasher throws, and leaves itself like this. -/
  | produceThrow (left : HashSink)
  /-- The critical section of `writeUnbuffered`, up to its wait or its end. -/
  | push
  | notifyPush
  | close
  | notifyClosed
  | join
  /-- The critical section of the worker. -/
  | pop
  | notifyPop
  /-- `inner(chunk)` returns, or is left out after a failure. -/
  | hash
  | hashThrow (left : HashSink)
  /-- A wait ends without a notification. -/
  | spuriousPush
  | spuriousPop
  deriving DecidableEq

def Event.isSpurious : Event → Bool
  | .spuriousPush => true
  | .spuriousPop => true
  | _ => false

namespace State

variable (maxQueued : Nat) (s : State)

def content (chunk : Nat) : Bytes := s.heap.getD chunk []

/-- `producing.assign(data)`. -/
def assign (chunk : Bytes) : State := { s with heap := s.heap.set s.producing chunk }

/-- The next `producing`: a spent buffer, or a new one. -/
def renew : State :=
  match s.free with
  | spent :: free => { s with producing := spent, free := free }
  | [] => { s with producing := s.heap.length, heap := s.heap ++ [[]] }

/-- `writeUnbuffered`, with the lock. -/
def push (data : List Bytes) (call : Call) : State :=
  if s.chunks.length < maxQueued then
    let s := { s with
      chunks := s.chunks ++ [s.producing]
      pushed := s.pushed ++ [(s.producing, s.content s.producing)] }.renew
    if s.chunks.length = 1 then { s with producer := .notifyPush data call }
    else { s with producer := .writing data call }
  else { s with producer := .waiting data call }

/-- The worker hands its buffer back. -/
def recycle (chunk : Nat) : State :=
  { s with heap := s.heap.set chunk [], free := chunk :: s.free }

/-- The worker's wait and what follows it, with the lock. -/
def pop : State :=
  match s.chunks with
  | [] => if s.closed then { s with worker := .exited } else { s with worker := .waiting }
  | chunk :: chunks =>
      let s := { s with chunks := chunks }
      if s.chunks.length = maxQueued - 1 then { s with worker := .notifyPop chunk }
      else { s with worker := .hashing chunk }

/-- `writeUnbuffered` without a thread. -/
def hashInline (chunk : Bytes) : State :=
  { s with
    inner := s.inner.write chunk
    pushed := s.pushed ++ [(s.producing, chunk)]
    hashed := s.hashed ++ [(s.producing, chunk)] }

/-- The call ends. -/
def leave [Sha256] : Call → State
  | .write => { s with producer := .idle }
  | .finish =>
      if s.failure then { s with producer := .threw }
      else { s with producer := .returned s.inner.finish }
  | .destroy => { s with producer := .destroyed }

end State

/-- One step; `none` where the event cannot happen. -/
def step [Sha256] (maxQueued : Nat) (s : State) : Event → Option State
  | .write data =>
      match s.producer with
      | .idle =>
          some { s with
            buffer := (bufferedWrite bufSize s.buffer data).2
            written := s.written ++ data
            producer := .writing (bufferedWrite bufSize s.buffer data).1 .write }
      | _ => none
  | .finish =>
      match s.producer with
      | .idle => some { s with buffer := [], producer := .writing (flush s.buffer) .finish }
      | _ => none
  | .destroy =>
      match s.producer with
      | .idle => some { s with buffer := [], producer := .writing (flush s.buffer) .destroy }
      | .returned _ => some { s with buffer := [], producer := .writing (flush s.buffer) .destroy }
      | .threw => some { s with buffer := [], producer := .writing (flush s.buffer) .destroy }
      | _ => none
  | .produce =>
      match s.producer with
      | .writing [] .write => some (s.leave .write)
      | .writing [] call => some { s with producer := .closing call }
      | .writing (chunk :: data) call =>
          if s.threaded then some { s.assign chunk with producer := .pushing data call }
          else some { s.hashInline chunk with producer := .writing data call }
      | _ => none
  | .produceThrow left =>
      match s.producer with
      | .writing (_ :: _) call =>
          if s.threaded then none
          else
            match call with
            -- ignored by the destructor
            | .destroy => some { s with inner := left, raised := true, producer := .destroyed }
            | _ => some { s with inner := left, raised := true, producer := .threw }
      | _ => none
  | .push =>
      match s.producer with
      | .pushing data call => some (s.push maxQueued data call)
      | _ => none
  | .notifyPush =>
      match s.producer with
      | .notifyPush data call => some { s with worker := s.worker.wake, producer := .writing data call }
      | _ => none
  | .close =>
      match s.producer with
      | .closing call => some { s with closed := true, producer := .notifyClosed call }
      | _ => none
  | .notifyClosed =>
      match s.producer with
      | .notifyClosed call => some { s with worker := s.worker.wake, producer := .joining call }
      | _ => none
  | .join =>
      match s.producer, s.worker with
      | .joining call, .exited => some (s.leave call)
      | .joining call, .absent => some (s.leave call)
      | _, _ => none
  | .pop =>
      match s.worker with
      | .locking => some (s.pop maxQueued)
      | .recycling chunk => some ((s.recycle chunk).pop maxQueued)
      | _ => none
  | .notifyPop =>
      match s.worker with
      | .notifyPop chunk => some { s with worker := .hashing chunk, producer := s.producer.wake }
      | _ => none
  | .hash =>
      match s.worker with
      | .hashing chunk =>
          if s.failure then
            -- only draining, so that the producer never blocks on a full queue
            some { s with
              dropped := s.dropped ++ [(chunk, s.content chunk)]
              worker := .recycling chunk }
          else
            some { s with
              inner := s.inner.write (s.content chunk)
              hashed := s.hashed ++ [(chunk, s.content chunk)]
              worker := .recycling chunk }
      | _ => none
  | .hashThrow left =>
      match s.worker with
      | .hashing chunk =>
          if s.failure then none
          else
            some { s with
              inner := left
              failure := true
              raised := true
              dropped := s.dropped ++ [(chunk, s.content chunk)]
              worker := .recycling chunk }
      | _ => none
  | .spuriousPush =>
      match s.worker with
      | .waiting => some { s with worker := .locking }
      | _ => none
  | .spuriousPop =>
      match s.producer with
      | .waiting data call => some { s with producer := .pushing data call }
      | _ => none

/-- `hashingThreadPaysOff()` has chosen. -/
def initial (threaded : Bool) : State where
  threaded := threaded
  buffer := []
  inner := .new
  heap := [[]]
  chunks := []
  free := []
  producing := 0
  closed := false
  failure := false
  producer := .idle
  worker := if threaded then .locking else .absent
  written := []
  pushed := []
  hashed := []
  dropped := []
  raised := false

def system [Sha256] (maxQueued : Nat) : TransitionSystem State Event :=
  .ofStep (fun s => ∃ threaded, s = initial threaded) (step maxQueued)

end AsyncHashSink
end Store
end Archinix
