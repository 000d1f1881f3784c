import Archinix.Foundation.TransitionSystem
import Archinix.Util.Bytes

/-!
# sourceToSink

The pipe of `serialise.cc` between a thread that writes a stream (the producer) and a
thread that runs a reader over it: `BufferedSink` in front, then a bounded ring of
buffers under a mutex, with a condition variable for each side that is signalled only
when the ring stops being empty, or full.
-/

namespace Archinix
namespace Util
namespace SourceToSink

open Foundation

/-! ## The buffer in front -/

/-- `BufferedSink::flush`: what it writes unbuffered. -/
def flush (buffer : Bytes) : List Bytes :=
  if buffer.isEmpty then [] else [buffer]

/-- `BufferedSink::operator()`: what it writes unbuffered, and what stays in the buffer. -/
def bufferedWrite (bufSize : Nat) (buffer data : Bytes) : List Bytes × Bytes :=
  if data = [] then ([], buffer)
  else if bufSize - buffer.length ≤ data.length then
    -- the data bypasses the buffer
    (flush buffer ++ [data], [])
  else
    let n := if bufSize - buffer.length < data.length then bufSize - buffer.length else data.length
    let filled := buffer ++ data.take n
    let flushed := if filled.length = bufSize then (flush filled, []) else ([], filled)
    let rest := bufferedWrite bufSize flushed.2 (data.drop n)
    (flushed.1 ++ rest.1, rest.2)
termination_by data.length
decreasing_by
  rename_i hempty hlarge
  have hpos := List.length_pos_iff.mpr hempty
  simp only [List.length_drop]
  split <;> omega

theorem flush_flatten (buffer : Bytes) : (flush buffer).flatten = buffer := by
  unfold flush
  split
  · rename_i hempty
    rw [List.isEmpty_iff.mp hempty]
    rfl
  · simp

/-- The buffer neither loses nor reorders bytes. -/
theorem bufferedWrite_flatten (bufSize : Nat) (buffer data : Bytes) :
    (bufferedWrite bufSize buffer data).1.flatten ++ (bufferedWrite bufSize buffer data).2 =
      buffer ++ data := by
  fun_induction bufferedWrite bufSize buffer data with
  | case1 buffer => simp
  | case2 buffer data hempty hlarge => simp [flush_flatten]
  | case3 buffer data hempty hsmall n filled flushed rest ih =>
      have hflushed : flushed.1.flatten ++ flushed.2 = filled := by
        show (if filled.length = bufSize then (flush filled, []) else ([], filled)).1.flatten ++
          (if filled.length = bufSize then (flush filled, []) else ([], filled)).2 = filled
        split
        · simp [flush_flatten]
        · simp
      calc (flushed.1 ++ rest.1).flatten ++ rest.2
          = flushed.1.flatten ++ (rest.1.flatten ++ rest.2) := by simp
        _ = flushed.1.flatten ++ (flushed.2 ++ data.drop n) := by rw [ih]
        _ = filled ++ data.drop n := by rw [← List.append_assoc, hflushed]
        _ = buffer ++ data := by rw [List.append_assoc, List.take_append_drop]

/-- The default `bufSize` of a `BufferedSink`. -/
def bufSize : Nat := 32 * 1024

def sourceToSinkQueued : Nat := 64

/-! ## The ring -/

/-- What the producer goes on with after `stop()`. -/
inductive After where
  /-- `finish()` returns. -/
  | finish
  /-- `writeUnbuffered` returns; these chunks are still to be written. -/
  | write (chunks : List Bytes) (finishing : Bool)

/-- Where the producer is; with what `operator()` or `finish()` has still to write. -/
inductive Producer where
  /-- Between two calls. -/
  | idle
  /-- About to call `writeUnbuffered` for the next chunk. -/
  | writing (chunks : List Bytes) (finishing : Bool)
  /-- `producing` is assigned; the lock comes next. -/
  | pushing (chunks : List Bytes) (finishing : Bool)
  /-- In `cvFree.wait`. -/
  | waiting (chunks : List Bytes) (finishing : Bool)
  | woken (chunks : List Bytes) (finishing : Bool)
  /-- `wake` is set: `cvFull.notify_one` comes next. -/
  | notifyFull (chunks : List Bytes) (finishing : Bool)
  /-- In `stop()`. -/
  | stopping (k : After)
  | notifyClosed (k : After)
  | joining (k : After)
  /-- `finish()` has returned. -/
  | finished
  /-- `stop()` has thrown what the reader raised. -/
  | threw

/-- Where the worker is, which runs the reader. -/
inductive Reader where
  /-- Not started. -/
  | absent
  /-- In the reader, between two calls of `pull`. -/
  | ready
  /-- In `pull`, about to take the lock. -/
  | pulling (outLen : Nat)
  /-- In `cvFull.wait`. -/
  | waiting (outLen : Nat)
  | woken (outLen : Nat)
  /-- The reader has returned or thrown. -/
  | quitting
  /-- `cvFree.notify_one` comes next. -/
  | notifyFree
  | exited

structure State where
  /-- The contents of the `BufferedSink`. -/
  buffer : Bytes
  full : List Bytes
  free : List Bytes
  producing : Bytes
  consuming : Bytes
  consumed : Nat
  closed : Bool
  quit : Bool
  /-- Whether the reader has thrown. -/
  failure : Bool
  /-- `worker.joinable()`. -/
  joinable : Bool
  producer : Producer
  reader : Reader
  /-- What has been handed to `operator()`. -/
  written : Bytes
  /-- What `pull` has copied out. -/
  received : Bytes
  /-- How often `pull` has thrown `EndOfFile`. -/
  eofs : Nat
  /-- Whether `pull` has computed a length below zero. -/
  overrun : Bool

inductive Event where
  /-- The producer calls `operator()`, or `finish()`. -/
  | write (data : Bytes)
  | finish
  /-- The producer goes on. -/
  | producer
  | producerSpurious
  /-- The reader calls `read`. -/
  | read (outLen : Nat)
  /-- The worker goes on. -/
  | reader
  | readerSpurious
  /-- The reader returns, or throws. -/
  | readerEnd (failed : Bool)

namespace State

variable (s : State)

/-- `cvFull.notify_one()`. -/
def notifyFull : State :=
  match s.reader with
  | .waiting outLen => { s with reader := .woken outLen }
  | _ => s

/-- `cvFree.notify_one()`. -/
def notifyFree : State :=
  match s.producer with
  | .waiting chunks finishing => { s with producer := .woken chunks finishing }
  | _ => s

/-- The end of `pull`. -/
def copy (outLen : Nat) : State :=
  if s.consuming.length < s.consumed then { s with overrun := true }
  else
    let n := min outLen (s.consuming.length - s.consumed)
    { s with
      received := s.received ++ (s.consuming.drop s.consumed).take n
      consumed := s.consumed + n
      reader := .ready }

/-- The spent buffer goes back. -/
def recycle : State :=
  if s.consuming.isEmpty then { s with consumed := 0 }
  else { s with free := s.free ++ [[]], consuming := [], consumed := 0 }

/-- `cvFull.wait` and what follows it under the lock. -/
def take (outLen : Nat) : State :=
  if s.closed || !s.full.isEmpty then
    match s.full with
    | [] => { s with eofs := s.eofs + 1, reader := .ready }
    | chunk :: full =>
        let s := { s with consuming := chunk, full := full }
        let s := if full.length = sourceToSinkQueued - 1 then s.notifyFree else s
        s.copy outLen
  else { s with reader := .waiting outLen }

/-- `cvFree.wait` and what follows it under the lock. -/
def push (chunks : List Bytes) (finishing : Bool) : State :=
  if s.quit || s.full.length < sourceToSinkQueued then
    if s.quit then { s with producer := .stopping (.write chunks finishing) }
    else
      { s with
        full := s.full ++ [s.producing]
        producing := s.free.getLastD []
        free := s.free.dropLast
        producer :=
          if (s.full ++ [s.producing]).length = 1 then .notifyFull chunks finishing
          else .writing chunks finishing }
  else { s with producer := .waiting chunks finishing }

/-- `stop()` returns. -/
def resume : After → State
  | .finish => { s with producer := .finished }
  | .write chunks finishing => { s with producer := .writing chunks finishing }

/-- The producer's next step. -/
def producerStep : Option State :=
  match s.producer with
  | .writing [] false => some { s with producer := .idle }
  | .writing [] true => some { s with producer := .stopping .finish }
  | .writing (chunk :: chunks) finishing =>
      if chunk.isEmpty then some { s with producer := .writing chunks finishing }
      else
        some { s with
          joinable := true
          reader := if s.joinable then s.reader else .ready
          producing := chunk
          producer := .pushing chunks finishing }
  | .pushing chunks finishing => some (s.push chunks finishing)
  | .woken chunks finishing => some (s.push chunks finishing)
  | .notifyFull chunks finishing =>
      some { s.notifyFull with producer := .writing chunks finishing }
  | .stopping k =>
      if s.joinable then some { s with closed := true, producer := .notifyClosed k }
      else some (s.resume k)
  | .notifyClosed k => some { s.notifyFull with producer := .joining k }
  | .joining k =>
      match s.reader with
      | .exited =>
          if s.failure then some { s with joinable := false, failure := false, producer := .threw }
          else some ({ s with joinable := false }.resume k)
      | _ => none
  | _ => none

/-- The worker's next step inside `pull`, or after the reader. -/
def readerStep : Option State :=
  match s.reader with
  | .pulling outLen => some (s.recycle.take outLen)
  | .woken outLen => some (s.take outLen)
  | .quitting => some { s with quit := true, reader := .notifyFree }
  | .notifyFree => some { s.notifyFree with reader := .exited }
  | _ => none

end State

/-- One step; `none` where the event cannot happen. -/
def step (s : State) : Event → Option State
  | .write data =>
      match s.producer with
      | .idle =>
          some { s with
            buffer := (bufferedWrite bufSize s.buffer data).2
            written := s.written ++ data
            producer := .writing (bufferedWrite bufSize s.buffer data).1 false }
      | _ => none
  | .finish =>
      match s.producer with
      | .idle => some { s with buffer := [], producer := .writing (flush s.buffer) true }
      | _ => none
  | .producer => s.producerStep
  | .producerSpurious =>
      match s.producer with
      | .waiting chunks finishing => some { s with producer := .woken chunks finishing }
      | _ => none
  | .read outLen =>
      match s.reader with
      | .ready =>
          if s.consumed = s.consuming.length then some { s with reader := .pulling outLen }
          else some (s.copy outLen)
      | _ => none
  | .reader => s.readerStep
  | .readerSpurious =>
      match s.reader with
      | .waiting outLen => some { s with reader := .woken outLen }
      | _ => none
  | .readerEnd failed =>
      match s.reader with
      | .ready => some { s with failure := failed, reader := .quitting }
      | _ => none

def initial : State where
  buffer := []
  full := []
  free := []
  producing := []
  consuming := []
  consumed := 0
  closed := false
  quit := false
  failure := false
  joinable := false
  producer := .idle
  reader := .absent
  written := []
  received := []
  eofs := 0
  overrun := false

def system : TransitionSystem State Event := .ofStep (· = initial) step

/-- The reader keeps reading until `EndOfFile`. -/
def KeepsReading (s : State) (e : Event) : Prop := ∀ failed, e = .readerEnd failed → 0 < s.eofs

end SourceToSink
end Util
end Archinix
