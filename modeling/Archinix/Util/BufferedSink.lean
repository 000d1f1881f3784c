import Archinix.Util.SourceToSink

/-!
# Buffered sinks

`BufferedSink` of `serialise.cc`, with the storage of its buffer.  `writeUnbuffered` is the
subclass's and may throw at any call; what it has been passed is kept, also by the call
that throws.  Copying beyond the storage, or from a buffer that is not there, is undefined
and has no result.

`calls_stream`: no sequence of writes and flushes is undefined, and what has been passed on
together with what is buffered is what has been written.
-/

namespace Archinix
namespace Util

/-- How a call ends. -/
inductive Ended where
  | returned
  | threw
  deriving DecidableEq

/-- What `new char[n]` holds before anything is written there. -/
structure NewArray where
  bytes : Nat → Bytes
  length_bytes : ∀ n, (bytes n).length = n

/-- `memcpy(storage + pos, data, n)`. -/
def memcpy (storage data : Bytes) (pos n : Nat) : Option Bytes :=
  if pos + n ≤ storage.length ∧ n ≤ data.length then
    some (storage.take pos ++ data.take n ++ storage.drop (pos + n))
  else none

structure BufferedSink where
  bufSize : Nat
  bufPos : Nat
  buffer : Option Bytes
  /-- The arguments of `writeUnbuffered`. -/
  passed : List Bytes

namespace BufferedSink

/-- `BufferedSink(bufSize)`. -/
def make (bufSize : Nat) : BufferedSink := ⟨bufSize, 0, none, []⟩

/-- The `bufPos` bytes that wait in the buffer. -/
def buffered (s : BufferedSink) : Bytes := (s.buffer.getD []).take s.bufPos

/-- All that has gone through the sink or waits there. -/
def stream (s : BufferedSink) : Bytes := s.passed.flatten ++ s.buffered

section Operations

variable (throws : List Bytes → Bool)

/-- Whether it throws may depend on all it has been passed. -/
def writeUnbuffered (data : Bytes) (s : BufferedSink) : Ended × BufferedSink :=
  let passed := s.passed ++ [data]
  (if throws passed then .threw else .returned, { s with passed := passed })

def flush (s : BufferedSink) : Option (Ended × BufferedSink) :=
  if s.bufPos = 0 then some (.returned, s)
  else
    match s.buffer with
    | none => none
    | some storage =>
        if storage.length < s.bufPos then none
        else some (writeUnbuffered throws (storage.take s.bufPos) { s with bufPos := 0 })

/-- What comes next when nothing has been thrown. -/
def andThen (r : Option (Ended × BufferedSink))
    (next : BufferedSink → Option (Ended × BufferedSink)) : Option (Ended × BufferedSink) :=
  match r with
  | none => none
  | some (.threw, s) => some (.threw, s)
  | some (.returned, s) => next s

/-- The loop of `operator()`. -/
def writeLoop (data : Bytes) (s : BufferedSink) : Option (Ended × BufferedSink) :=
  if data = [] then some (.returned, s)
  -- `bufPos` is never beyond `bufSize`, where this would wrap around
  else if s.bufSize - s.bufPos ≤ data.length then
    andThen (s.flush throws) fun s => some (s.writeUnbuffered throws data)
  else
    let n := if s.bufSize - s.bufPos < data.length then s.bufSize - s.bufPos else data.length
    match s.buffer.bind fun storage => memcpy storage data s.bufPos n with
    | none => none
    | some storage =>
        let s := { s with buffer := some storage, bufPos := s.bufPos + n }
        andThen (if s.bufPos = s.bufSize then s.flush throws else some (.returned, s))
          fun s => writeLoop (data.drop n) s
termination_by data.length
decreasing_by
  rename_i hempty hlarge _
  have hpos := List.length_pos_iff.mpr hempty
  simp only [List.length_drop]
  split <;> omega

/-- `BufferedSink::operator()`. -/
def write (new : NewArray) (data : Bytes) (s : BufferedSink) : Option (Ended × BufferedSink) :=
  writeLoop throws data
    { s with buffer := some (s.buffer.getD (new.bytes s.bufSize)) }

end Operations

/-- The position lies in the buffer, and bytes wait only in storage of the right size. -/
structure Inv (s : BufferedSink) : Prop where
  bufPos_le : s.bufPos ≤ s.bufSize
  length_buffer : ∀ storage, s.buffer = some storage → storage.length = s.bufSize
  buffer_of_pos : s.bufPos ≠ 0 → s.buffer ≠ none

theorem inv_make (bufSize : Nat) : Inv (make bufSize) := ⟨Nat.zero_le _, nofun, nofun⟩

variable {throws : List Bytes → Bool} {s : BufferedSink} {data : Bytes}

theorem length_buffered (h : Inv s) : s.buffered.length = s.bufPos := by
  have hpos := h.bufPos_le
  cases hbuffer : s.buffer with
  | none =>
      have hzero : s.bufPos = 0 := by
        by_contra hne
        exact h.buffer_of_pos hne hbuffer
      rw [buffered, hzero, List.take_zero, List.length_nil]
  | some storage =>
      have hlength := h.length_buffer storage hbuffer
      rw [buffered, hbuffer, Option.getD_some, List.length_take]
      omega

/-- The sink after a flush. -/
def flushed (s : BufferedSink) : BufferedSink :=
  { s with bufPos := 0, passed := s.passed ++ SourceToSink.flush s.buffered }

/-- A flush passes on what is buffered, throwing or not. -/
theorem flush_spec (throws : List Bytes → Bool) (h : Inv s) : ∃ e, s.flush throws = some (e, s.flushed) ∧
    (e = .threw → throws (s.passed ++ [s.buffered]) = true) := by
  by_cases hzero : s.bufPos = 0
  · refine ⟨.returned, ?_, nofun⟩
    have hnothing : SourceToSink.flush s.buffered = [] := by
      rw [buffered, hzero, List.take_zero]
      rfl
    rw [flush, if_pos hzero, flushed, hnothing, List.append_nil, ← hzero]
  · cases hbuffer : s.buffer with
    | none => exact absurd hbuffer (h.buffer_of_pos hzero)
    | some storage =>
        have hlength := h.length_buffer storage hbuffer
        have hpos := h.bufPos_le
        have hbuffered : s.buffered = storage.take s.bufPos := by rw [buffered, hbuffer, Option.getD_some]
        have hnonempty : SourceToSink.flush s.buffered = [s.buffered] := by
          rw [SourceToSink.flush, if_neg]
          rw [List.isEmpty_iff, ← List.length_eq_zero_iff, length_buffered h]
          exact hzero
        refine ⟨if throws (s.passed ++ [s.buffered]) then .threw else .returned, ?_, ?_⟩
        · rw [flush, if_neg hzero, flushed, hnonempty, hbuffered, hbuffer]
          dsimp only
          rw [if_neg (by omega), writeUnbuffered]
        · intro hthrew
          by_contra hnot
          rw [if_neg hnot] at hthrew
          cases hthrew

theorem inv_flushed (h : Inv s) : Inv s.flushed :=
  ⟨Nat.zero_le _, h.length_buffer, fun hne => absurd rfl hne⟩

theorem buffered_flushed (s : BufferedSink) : s.flushed.buffered = [] := List.take_zero

/-- A flush moves bytes on and loses none. -/
theorem stream_flushed (s : BufferedSink) : s.flushed.stream = s.stream := by
  rw [stream, buffered_flushed, List.append_nil, flushed, stream, List.flatten_append,
    SourceToSink.flush_flatten]

/-- With nothing in the buffer before them, data passed on come next in the stream. -/
theorem stream_writeUnbuffered (throws : List Bytes → Bool) (s : BufferedSink) (data : Bytes) :
    (s.flushed.writeUnbuffered throws data).2.stream = s.flushed.stream ++ data := by
  have hbuffered : (s.flushed.writeUnbuffered throws data).2.buffered = [] := List.take_zero
  rw [stream, stream, hbuffered, buffered_flushed]
  show (s.flushed.passed ++ [data]).flatten ++ [] = _
  rw [List.flatten_append, List.flatten_singleton, List.append_nil, List.append_nil]

theorem memcpy_spec {storage : Bytes} {pos n : Nat} (hroom : pos + n ≤ storage.length)
    (hdata : n ≤ data.length) : ∃ copied, memcpy storage data pos n = some copied ∧
      copied.length = storage.length ∧ copied.take (pos + n) = storage.take pos ++ data.take n := by
  have hbefore : (storage.take pos ++ data.take n).length = pos + n := by
    rw [List.length_append, List.length_take, List.length_take]
    omega
  refine ⟨storage.take pos ++ data.take n ++ storage.drop (pos + n), if_pos ⟨hroom, hdata⟩, ?_, ?_⟩
  · rw [List.length_append, hbefore, List.length_drop]
    omega
  · rw [← hbefore, List.take_left]

theorem writeLoop_nil (throws : List Bytes → Bool) (s : BufferedSink) :
    s.writeLoop throws [] = some (.returned, s) := by
  rw [writeLoop, if_pos rfl]

theorem writeLoop_large (throws : List Bytes → Bool) (hempty : data ≠ [])
    (hlarge : s.bufSize - s.bufPos ≤ data.length) : s.writeLoop throws data =
      andThen (s.flush throws) fun s => some (s.writeUnbuffered throws data) := by
  rw [writeLoop, if_neg hempty, if_pos hlarge]

/-- Data that are copied do not fill the buffer, and the loop ends. -/
theorem writeLoop_small (throws : List Bytes → Bool) (h : Inv s) {storage : Bytes}
    (hbuffer : s.buffer = some storage) (hempty : data ≠ [])
    (hsmall : data.length < s.bufSize - s.bufPos) : ∃ copied, s.writeLoop throws data =
      some (.returned, { s with buffer := some copied, bufPos := s.bufPos + data.length }) ∧
      copied.length = s.bufSize ∧ copied.take (s.bufPos + data.length) = s.buffered ++ data := by
  have hlength := h.length_buffer storage hbuffer
  have hn : ¬ s.bufSize - s.bufPos < data.length := by omega
  have hfull : s.bufPos + data.length ≠ s.bufSize := by omega
  have hroom : s.bufPos + data.length ≤ storage.length := by omega
  obtain ⟨copied, hcopy, hcopied, htake⟩ := memcpy_spec hroom (Nat.le_refl data.length)
  refine ⟨copied, ?_, hcopied.trans hlength, ?_⟩
  · rw [writeLoop, if_neg hempty, if_neg (Nat.not_le.2 hsmall), if_neg hn, hbuffer]
    dsimp only [Option.bind_some]
    rw [hcopy]
    dsimp only
    rw [if_neg hfull, List.drop_length, andThen, writeLoop_nil]
  · rw [htake, List.take_length, buffered, hbuffer, Option.getD_some]

/-- The sink whose buffer is there. -/
def prepared (new : NewArray) (s : BufferedSink) : BufferedSink :=
  { s with buffer := some (s.buffer.getD (new.bytes s.bufSize)) }

variable {new : NewArray}

theorem inv_prepared (h : Inv s) : Inv (s.prepared new) := by
  refine ⟨h.bufPos_le, fun storage hstorage => ?_, nofun⟩
  obtain rfl : s.buffer.getD (new.bytes s.bufSize) = storage := Option.some.inj hstorage
  cases hbuffer : s.buffer with
  | none => exact new.length_bytes s.bufSize
  | some b => exact h.length_buffer b hbuffer

/-- The contents of fresh storage are never taken for data. -/
theorem buffered_prepared (h : Inv s) : (s.prepared new).buffered = s.buffered := by
  cases hbuffer : s.buffer with
  | none =>
      have hzero : s.bufPos = 0 := by
        by_contra hne
        exact h.buffer_of_pos hne hbuffer
      rw [buffered, buffered, prepared, hzero, List.take_zero, List.take_zero]
  | some b => rw [prepared, hbuffer, Option.getD_some, ← hbuffer]

end BufferedSink

/-- The calls on a sink. -/
inductive BufferedCall where
  | write (data : Bytes)
  | flush

/-- What a call adds to the stream, by how it ends: a write that throws may have passed its
data on, and has else added nothing. -/
def Contributes : BufferedCall → Ended → Bytes → Prop
  | .write data, .returned, added => added = data
  | .write data, .threw, added => added = data ∨ added = []
  | .flush, _, added => added = []

theorem contributes_data (data : Bytes) (e : Ended) : Contributes (.write data) e data := by
  cases e with
  | returned => rfl
  | threw => exact .inl rfl

namespace BufferedSink

variable {throws : List Bytes → Bool} {new : NewArray} {s : BufferedSink}

/-- The spec of one write. -/
theorem write_spec (throws : List Bytes → Bool) (new : NewArray) (h : Inv s) (data : Bytes) :
    ∃ e s' added, s.write throws new data = some (e, s') ∧ Inv s' ∧ s'.bufSize = s.bufSize ∧
      Contributes (.write data) e added ∧ s'.stream = s.stream ++ added ∧
      (e = .threw → s'.bufPos = 0) := by
  have hinv : Inv (s.prepared new) := inv_prepared h
  have hstream : (s.prepared new).stream = s.stream := by
    rw [stream, stream, buffered_prepared h]
    rfl
  show ∃ e s' added, (s.prepared new).writeLoop throws data = some (e, s') ∧ _
  rw [← hstream]
  by_cases hempty : data = []
  · subst hempty
    exact ⟨.returned, _, [], writeLoop_nil .., hinv, rfl, rfl, (List.append_nil _).symm, nofun⟩
  by_cases hlarge : (s.prepared new).bufSize - (s.prepared new).bufPos ≤ data.length
  · obtain ⟨e, hflush, -⟩ := flush_spec throws hinv
    rw [writeLoop_large throws hempty hlarge, hflush, ← stream_flushed]
    have hinv' := inv_flushed hinv
    cases e with
    | threw => exact ⟨.threw, _, [], rfl, hinv', rfl, .inr rfl, (List.append_nil _).symm, fun _ => rfl⟩
    | returned =>
        refine ⟨_, _, data, rfl, ?_, rfl, ?_, ?_, fun _ => rfl⟩
        · exact ⟨hinv'.bufPos_le, hinv'.length_buffer, hinv'.buffer_of_pos⟩
        · exact contributes_data ..
        · exact stream_writeUnbuffered throws _ _
  · obtain ⟨copied, hloop, hlength, htake⟩ :=
      writeLoop_small throws hinv rfl hempty (Nat.not_le.1 hlarge)
    refine ⟨.returned, _, data, hloop, ⟨?_, ?_, nofun⟩, rfl, rfl, ?_, nofun⟩
    · show (s.prepared new).bufPos + data.length ≤ (s.prepared new).bufSize
      omega
    · intro storage hstorage
      obtain rfl : copied = storage := Option.some.inj hstorage
      exact hlength
    · rw [stream, stream, buffered, Option.getD_some, htake, List.append_assoc]

def call (throws : List Bytes → Bool) (new : NewArray) (s : BufferedSink) :
    BufferedCall → Option (Ended × BufferedSink)
  | .write data => s.write throws new data
  | .flush => s.flush throws

/-- The calls of a user that goes on after what is thrown. -/
def calls (throws : List Bytes → Bool) (new : NewArray) (s : BufferedSink) :
    List BufferedCall → Option (List (BufferedCall × Ended) × BufferedSink)
  | [] => some ([], s)
  | c :: cs =>
      match s.call throws new c with
      | none => none
      | some (e, s) => (s.calls throws new cs).map fun r => ((c, e) :: r.1, r.2)

theorem call_spec (throws : List Bytes → Bool) (new : NewArray) (h : Inv s) (c : BufferedCall) :
    ∃ e s' added, s.call throws new c = some (e, s') ∧ Inv s' ∧ s'.bufSize = s.bufSize ∧
      Contributes c e added ∧ s'.stream = s.stream ++ added ∧
      (c = .flush ∨ e = .threw → s'.bufPos = 0) := by
  cases c with
  | write data =>
      obtain ⟨e, s', added, hwrite, hinv, hsize, hadded, hstream, hthrew⟩ := write_spec throws new h data
      exact ⟨e, s', added, hwrite, hinv, hsize, hadded, hstream, fun hor => hthrew (hor.resolve_left nofun)⟩
  | flush =>
      obtain ⟨e, hflush, -⟩ := flush_spec throws h
      refine ⟨e, s.flushed, [], hflush, inv_flushed h, rfl, ?_, ?_, fun _ => rfl⟩
      · cases e <;> rfl
      · rw [stream_flushed, List.append_nil]

/-- Any calls on a sink, from any point of its life: all of them end, defined; the stream
grows by what they contribute, and behind a flush nothing is buffered. -/
theorem calls_spec (throws : List Bytes → Bool) (new : NewArray) (h : Inv s)
    (cs : List BufferedCall) : ∃ history s' added, s.calls throws new cs = some (history, s') ∧
      history.map Prod.fst = cs ∧ Inv s' ∧ s'.bufSize = s.bufSize ∧
      List.Forall₂ (fun call a => Contributes call.1 call.2 a) history added ∧
      s'.stream = s.stream ++ added.flatten ∧
      (∀ call ∈ history.getLast?, call.1 = .flush ∨ call.2 = .threw → s'.bufPos = 0) := by
  induction cs generalizing s with
  | nil => exact ⟨[], s, [], rfl, rfl, h, rfl, .nil, (List.append_nil _).symm, nofun⟩
  | cons c cs ih =>
      obtain ⟨e, s₁, added, hcall, hinv, hsize, hadded, hstream, hempty⟩ := call_spec throws new h c
      obtain ⟨history, s', rest, hcalls, hfst, hinv', hsize', hrest, hstream', hlast⟩ := ih hinv
      refine ⟨(c, e) :: history, s', added :: rest, ?_, ?_, hinv', hsize'.trans hsize,
        .cons hadded hrest, ?_, ?_⟩
      · rw [calls, hcall]
        dsimp only
        rw [hcalls]
        rfl
      · rw [List.map_cons, hfst]
      · rw [hstream', hstream, List.flatten_cons, List.append_assoc]
      · cases history with
        | nil =>
            obtain rfl : cs = [] := hfst.symm
            obtain ⟨-, rfl⟩ := Prod.mk.inj (Option.some.inj hcalls)
            intro call hmem hor
            obtain rfl : (c, e) = call := Option.some.inj hmem
            exact hempty hor
        | cons d history =>
            rw [List.getLast?_cons_cons]
            exact hlast

/-- Where nothing throws a write is that of the model without storage. -/
theorem write_eq_bufferedWrite (new : NewArray) (h : Inv s) (hthrows : ∀ passed, throws passed = false)
    (data : Bytes) : ∃ s', s.write throws new data = some (.returned, s') ∧
      s'.passed = s.passed ++ (SourceToSink.bufferedWrite s.bufSize s.buffered data).1 ∧
      s'.buffered = (SourceToSink.bufferedWrite s.bufSize s.buffered data).2 := by
  have hinv : Inv (s.prepared new) := inv_prepared h
  have hlength := length_buffered h
  have hbuffered : (s.prepared new).buffered = s.buffered := buffered_prepared h
  show ∃ s', (s.prepared new).writeLoop throws data = _ ∧ _
  rw [SourceToSink.bufferedWrite, hlength]
  by_cases hempty : data = []
  · subst hempty
    rw [if_pos rfl, writeLoop_nil]
    exact ⟨_, rfl, (List.append_nil _).symm, hbuffered⟩
  rw [if_neg hempty]
  by_cases hlarge : s.bufSize - s.bufPos ≤ data.length
  · obtain ⟨e, hflush, hthrew⟩ := flush_spec throws hinv
    cases e with
    | threw => simp [hthrows] at hthrew
    | returned =>
        rw [if_pos hlarge, writeLoop_large (s := s.prepared new) throws hempty hlarge, hflush, andThen,
          writeUnbuffered, hthrows]
        refine ⟨_, rfl, ?_, List.take_zero⟩
        rw [← hbuffered, ← List.append_assoc]
        rfl
  · obtain ⟨copied, hloop, -, htake⟩ :=
      writeLoop_small throws hinv rfl hempty (Nat.not_le.1 hlarge)
    have hn : ¬ s.bufSize - s.bufPos < data.length := by omega
    have hfull : ¬ (s.buffered ++ data).length = s.bufSize := by
      rw [List.length_append, hlength]
      omega
    rw [if_neg hlarge]
    dsimp only
    rw [if_neg hn, List.take_length, if_neg hfull, List.drop_length, SourceToSink.bufferedWrite,
      if_pos rfl]
    exact ⟨_, hloop, (List.append_nil _).symm, htake.trans (by rw [hbuffered])⟩

end BufferedSink

end Util
end Archinix
