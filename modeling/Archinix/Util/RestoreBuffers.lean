import Archinix.Util.BufferedSink

/-!
# The buffer lent from file to file

`RestoreSink` of `fs-sink.cc`, as far as its `fileBuf` goes.  Every regular file has a
buffered sink of its own, over its own descriptor; the storage of its buffer is lent to it
by the sink of the directory and taken back when the file is complete, and the sink of a
subdirectory has it while that is restored.  An exception can come from anywhere: then the
storage goes with the sink that holds it.

`buffered_sinks`: with what is known of one sink, every file is passed what was written to
it and nothing else.
-/

namespace Archinix
namespace Util
namespace RestoreBuffers

/-- What happens to a regular file that is restored. -/
structure FileScript where
  /-- It can be created. -/
  opens : Bool
  /-- What the callback writes, and whether it catches what this throws. -/
  writes : List (Bytes × Bool)
  /-- The callback throws, after all it writes. -/
  callbackThrows : Bool
  /-- `fchmod` or `futimens` fails in the end. -/
  finishThrows : Bool
  /-- Whether `writeFull` throws, given all the file has been passed. -/
  throws : List Bytes → Bool
  new : NewArray

/-- A file that has been created: the writes that were made and how they ended, what its
descriptor was passed, and how `createRegularFile` ended. -/
structure FileRecord where
  script : FileScript
  calls : List (Bytes × Ended)
  passed : List Bytes
  ended : Ended

/-- The storage that the current `RestoreSink` has, and the files so far. -/
structure Restored where
  fileBuf : Option Bytes
  files : List FileRecord

/-- What happens to a directory that is restored. -/
structure DirectoryScript where
  isRoot : Bool
  opens : Bool
  finishThrows : Bool

/-- A callback of `createDirectory`: the calls it makes on the sink it is given, and whether
it catches what they throw. -/
inductive Restoring where
  | done
  | throw
  | file (f : FileScript) (caught : Bool) (next : Restoring)
  | directory (d : DirectoryScript) (inner : Restoring) (caught : Bool) (next : Restoring)

/-- The callback of `createRegularFile`. -/
def writeContents (f : FileScript) :
    List (Bytes × Bool) → BufferedSink → Option (Ended × List (Bytes × Ended) × BufferedSink)
  | [], sink => some (if f.callbackThrows then .threw else .returned, [], sink)
  | (data, caught) :: rest, sink =>
      match sink.write f.throws f.new data with
      | none => none
      | some (e, sink) =>
          if e = .threw ∧ caught = false then some (.threw, [(data, e)], sink)
          else (writeContents f rest sink).map fun r => (r.1, (data, e) :: r.2.1, r.2.2)

/-- The destructors of `RestoreRegularFile` and of its `FdSink`, each of which flushes and
ignores what that throws. -/
def closeFile (f : FileScript) (calls : List (Bytes × Ended)) (ended : Ended) (sink : BufferedSink)
    (r : Restored) : Option (Ended × Restored) := do
  let (_, sink) ← sink.flush f.throws
  let (_, sink) ← sink.flush f.throws
  some (ended, { r with files := r.files ++ [⟨f, calls, sink.passed, ended⟩] })

/-- `RestoreSink::createRegularFile`. -/
def createRegularFile (f : FileScript) (r : Restored) : Option (Ended × Restored) :=
  if f.opens = false then some (.threw, r)
  else do
    let (e, calls, sink) ← writeContents f f.writes
      { BufferedSink.make SourceToSink.bufSize with buffer := r.fileBuf }
    let r := { r with fileBuf := none }
    match e with
    | .threw => closeFile f calls .threw sink r
    | .returned => do
        let (e, sink) ← sink.flush f.throws
        match e with
        | .threw => closeFile f calls .threw sink r
        | .returned =>
            -- the storage is taken back before the metadata are set
            closeFile f calls (if f.finishThrows then .threw else .returned)
              { sink with buffer := none } { r with fileBuf := sink.buffer }

/-- `RestoreSink::createDirectory`. -/
def createDirectory (d : DirectoryScript) (callback : Restored → Option (Ended × Restored))
    (r : Restored) : Option (Ended × Restored) :=
  if d.opens = false then some (.threw, r)
  else if d.isRoot then callback r
  else
    match callback r with
    | none => none
    -- the storage was moved to the sink that is gone
    | some (.threw, r) => some (.threw, { r with fileBuf := none })
    | some (.returned, r) => some (if d.finishThrows then .threw else .returned, r)

/-- What comes after a call in a callback. -/
def continueWith (caught : Bool) (next : Restored → Option (Ended × Restored)) :
    Option (Ended × Restored) → Option (Ended × Restored)
  | none => none
  | some (e, r) => if e = .threw ∧ caught = false then some (.threw, r) else next r

def restore : Restoring → Restored → Option (Ended × Restored)
  | .done, r => some (.returned, r)
  | .throw, r => some (.threw, r)
  | .file f caught next, r => continueWith caught (restore next) (createRegularFile f r)
  | .directory d inner caught next, r =>
      continueWith caught (restore next) (createDirectory d (restore inner) r)

/-- A file was passed what was written to it: all the data of each write that returned, and
all or none of one that threw, in their order. -/
structure Own (file : FileRecord) : Prop where
  calls : file.calls.map Prod.fst <+: file.script.writes.map Prod.fst
  all_calls : file.ended = .returned →
    file.calls.map Prod.fst = file.script.writes.map Prod.fst
  passed : ∃ added, List.Forall₂ (fun call a => Contributes (.write call.1) call.2 a) file.calls added ∧
    file.passed.flatten = added.flatten

theorem added_of_returned {calls : List (Bytes × Ended)} {added : List Bytes}
    (h : List.Forall₂ (fun call a => Contributes (.write call.1) call.2 a) calls added)
    (hcalls : ∀ call ∈ calls, call.2 = .returned) : added = calls.map Prod.fst := by
  induction h with
  | nil => rfl
  | cons hfirst _ ih =>
      rw [hcalls _ List.mem_cons_self] at hfirst
      rw [List.map_cons, ih fun call hcall => hcalls call (List.mem_cons_of_mem _ hcall)]
      exact congrArg (· :: _) hfirst

/-- A file that is complete, none of its writes having thrown, has been passed all of its
data. -/
theorem Own.complete {file : FileRecord} (h : Own file) (hended : file.ended = .returned)
    (hcalls : ∀ call ∈ file.calls, call.2 = .returned) :
    file.passed.flatten = (file.script.writes.map Prod.fst).flatten := by
  obtain ⟨added, hadded, hpassed⟩ := h.passed
  rw [hpassed, added_of_returned hadded hcalls, h.all_calls hended]

/-- Storage that fits the sinks of the files. -/
def Fits (r : Restored) : Prop :=
  ∀ storage, r.fileBuf = some storage → storage.length = SourceToSink.bufSize

/-- A part of a restore that is defined, leaves storage that fits and mixes up no files. -/
def KeepsApart (part : Restored → Option (Ended × Restored)) : Prop :=
  ∀ r, Fits r → ∃ e r' files, part r = some (e, r') ∧ Fits r' ∧ r'.files = r.files ++ files ∧
    ∀ file ∈ files, Own file

section File

variable {f : FileScript} {sink : BufferedSink} {r : Restored}

theorem writeContents_spec (f : FileScript) (writes : List (Bytes × Bool)) (h : sink.Inv) :
    ∃ e calls sink' added, writeContents f writes sink = some (e, calls, sink') ∧ sink'.Inv ∧
      sink'.bufSize = sink.bufSize ∧ calls.map Prod.fst <+: writes.map Prod.fst ∧
      (e = .returned → calls.map Prod.fst = writes.map Prod.fst) ∧
      List.Forall₂ (fun call a => Contributes (.write call.1) call.2 a) calls added ∧
      sink'.stream = sink.stream ++ added.flatten := by
  induction writes generalizing sink with
  | nil => exact ⟨_, [], sink, [], rfl, h, rfl, List.nil_prefix, fun _ => rfl, .nil, (List.append_nil _).symm⟩
  | cons w rest ih =>
      obtain ⟨data, caught⟩ := w
      obtain ⟨e, s₁, added, hwrite, hinv, hsize, hadded, hstream, -⟩ :=
        sink.write_spec f.throws f.new h data
      rw [writeContents, hwrite]
      dsimp only
      by_cases hstop : e = .threw ∧ caught = false
      · rw [if_pos hstop]
        refine ⟨.threw, [(data, e)], s₁, [added], rfl, hinv, hsize, ?_, nofun, .cons hadded .nil, ?_⟩
        · exact ⟨rest.map Prod.fst, rfl⟩
        · rw [hstream, List.flatten_singleton]
      · obtain ⟨e', calls, s₂, more, hrest, hinv', hsize', hfront, hall, hmore, hstream'⟩ := ih hinv
        rw [if_neg hstop, hrest]
        refine ⟨e', (data, e) :: calls, s₂, added :: more, rfl, hinv', hsize'.trans hsize, ?_, ?_,
          .cons hadded hmore, ?_⟩
        · exact List.prefix_cons_inj data |>.2 hfront
        · intro hreturned
          rw [List.map_cons, List.map_cons, hall hreturned]
        · rw [hstream', hstream, List.flatten_cons, List.append_assoc]

/-- Whatever happened, in the end all that went into the sink has been passed on. -/
theorem closeFile_spec (f : FileScript) (calls : List (Bytes × Ended)) (ended : Ended)
    (h : sink.Inv) (r : Restored) : ∃ passed, closeFile f calls ended sink r =
      some (ended, { r with files := r.files ++ [⟨f, calls, passed, ended⟩] }) ∧
      passed.flatten = sink.stream := by
  obtain ⟨e₁, hflush₁, -⟩ := sink.flush_spec f.throws h
  have hinv := sink.inv_flushed h
  obtain ⟨e₂, hflush₂, -⟩ := sink.flushed.flush_spec f.throws hinv
  refine ⟨sink.flushed.flushed.passed, ?_, ?_⟩
  · show ((sink.flush f.throws).bind fun s => (s.2.flush f.throws).bind _) = _
    rw [hflush₁, Option.bind_some, hflush₂, Option.bind_some]
  · rw [← sink.stream_flushed, ← sink.flushed.stream_flushed, BufferedSink.stream,
      BufferedSink.buffered_flushed, List.append_nil]

/-- A file gets a sink of its own; the storage it comes with holds nothing for it. -/
theorem lend_spec (h : Fits r) :
    ({ BufferedSink.make SourceToSink.bufSize with buffer := r.fileBuf } : BufferedSink).Inv ∧
      ({ BufferedSink.make SourceToSink.bufSize with buffer := r.fileBuf } : BufferedSink).stream = [] := by
  constructor
  · exact ⟨Nat.zero_le _, h, fun hne => absurd rfl hne⟩
  · show [] ++ (r.fileBuf.getD []).take 0 = []
    rw [List.take_zero, List.append_nil]

theorem createRegularFile_keepsApart (f : FileScript) : KeepsApart (createRegularFile f) := by
  intro r hfits
  by_cases hopens : f.opens = false
  · refine ⟨.threw, r, [], ?_, hfits, (List.append_nil _).symm, nofun⟩
    rw [createRegularFile, if_pos hopens]
  obtain ⟨hinv, hempty⟩ := lend_spec hfits
  obtain ⟨e, calls, sink, added, hwrites, hinv₁, hsize, hfront, hall, hadded, hstream⟩ :=
    writeContents_spec f f.writes hinv
  rw [hempty, List.nil_append] at hstream
  have hlost : Fits { r with fileBuf := none } := nofun
  -- however the file ends, what it was passed is what the writes contributed
  have hown : ∀ passed ended, passed.flatten = added.flatten → (ended = .returned → e = .returned) →
      ∀ file ∈ [(⟨f, calls, passed, ended⟩ : FileRecord)], Own file := by
    intro passed ended hpassed hended file hfile
    obtain rfl := List.mem_singleton.1 hfile
    exact ⟨hfront, fun hreturned => hall (hended hreturned), added, hadded, hpassed⟩
  have hrun : createRegularFile f r = _ :=
    (if_neg hopens).trans (congrArg (Option.bind · _) hwrites)
  rw [hrun, Option.bind_some]
  cases e with
  | threw =>
      obtain ⟨passed, hclose, hpassed⟩ :=
        closeFile_spec f calls .threw hinv₁ { r with fileBuf := none }
      exact ⟨_, _, _, hclose, hlost, rfl, hown passed .threw (hpassed.trans hstream) nofun⟩
  | returned =>
      obtain ⟨e', hflush, -⟩ := sink.flush_spec f.throws hinv₁
      have hinv₂ := sink.inv_flushed hinv₁
      have hstream₂ := sink.stream_flushed.trans hstream
      dsimp only
      rw [hflush]
      cases e' with
      | threw =>
          obtain ⟨passed, hclose, hpassed⟩ :=
            closeFile_spec f calls .threw hinv₂ { r with fileBuf := none }
          exact ⟨_, _, _, hclose, hlost, rfl, hown passed .threw (hpassed.trans hstream₂) nofun⟩
      | returned =>
          have hinv₃ : ({ sink.flushed with buffer := none } : BufferedSink).Inv :=
            ⟨Nat.zero_le _, nofun, fun hne => absurd rfl hne⟩
          have hstream₃ : ({ sink.flushed with buffer := none } : BufferedSink).stream = added.flatten := by
            rw [← hstream₂, BufferedSink.stream, BufferedSink.stream, BufferedSink.buffered_flushed]
            exact congrArg (_ ++ ·) List.take_zero
          obtain ⟨passed, hclose, hpassed⟩ :=
            closeFile_spec f calls (if f.finishThrows then .threw else .returned) hinv₃
              { r with fileBuf := sink.flushed.buffer }
          refine ⟨_, _, _, hclose, fun storage hstorage => ?_, rfl,
            hown passed _ (hpassed.trans hstream₃) fun _ => rfl⟩
          exact (hinv₂.length_buffer storage hstorage).trans hsize

end File

section Directory

theorem createDirectory_keepsApart (d : DirectoryScript)
    {callback : Restored → Option (Ended × Restored)} (h : KeepsApart callback) :
    KeepsApart (createDirectory d callback) := by
  intro r hfits
  rw [createDirectory]
  by_cases hopens : d.opens = false
  · rw [if_pos hopens]
    exact ⟨.threw, r, [], rfl, hfits, (List.append_nil _).symm, nofun⟩
  rw [if_neg hopens]
  obtain ⟨e, r', files, hcallback, hfits', hfiles, hown⟩ := h r hfits
  by_cases hroot : d.isRoot = true
  · rw [if_pos hroot]
    exact ⟨e, r', files, hcallback, hfits', hfiles, hown⟩
  rw [if_neg hroot, hcallback]
  cases e with
  | threw => exact ⟨.threw, _, files, rfl, nofun, hfiles, hown⟩
  | returned => exact ⟨_, r', files, rfl, hfits', hfiles, hown⟩

theorem continueWith_keepsApart (caught : Bool) {part next : Restored → Option (Ended × Restored)}
    (hpart : KeepsApart part) (hnext : KeepsApart next) :
    KeepsApart fun r => continueWith caught next (part r) := by
  intro r hfits
  obtain ⟨e, r₁, files, hrun, hfits₁, hfiles, hown⟩ := hpart r hfits
  dsimp only
  rw [hrun, continueWith]
  by_cases hstop : e = .threw ∧ caught = false
  · rw [if_pos hstop]
    exact ⟨.threw, r₁, files, rfl, hfits₁, hfiles, hown⟩
  · obtain ⟨e', r₂, more, hrun', hfits₂, hfiles', hown'⟩ := hnext r₁ hfits₁
    rw [if_neg hstop]
    refine ⟨e', r₂, files ++ more, hrun', hfits₂, ?_, fun file hfile => ?_⟩
    · rw [hfiles', hfiles, List.append_assoc]
    · exact (List.mem_append.1 hfile).elim (hown file) (hown' file)

/-- No restore mixes up its files, however its directories are nested and wherever it
throws. -/
theorem restore_keepsApart (p : Restoring) : KeepsApart (restore p) := by
  induction p with
  | done => exact fun r hfits => ⟨.returned, r, [], rfl, hfits, (List.append_nil _).symm, nofun⟩
  | throw => exact fun r hfits => ⟨.threw, r, [], rfl, hfits, (List.append_nil _).symm, nofun⟩
  | file f caught next ih =>
      exact continueWith_keepsApart caught (createRegularFile_keepsApart f) ih
  | directory d inner caught next ihInner ih =>
      exact continueWith_keepsApart caught (createDirectory_keepsApart d ihInner) ih

end Directory

/-- A buffered sink of any size, under any writes and flushes, with exceptions of
`writeUnbuffered` at any of its calls: every call ends; what has been passed on, with the
`bufPos` bytes that are buffered, is what has been written; the position stays in the
buffer; and behind a flush nothing is buffered.  In a restore, where one file after the
other gets the storage of the last, each file is passed what was written to it. -/
theorem buffered_sinks (bufSize : Nat) (throws : List Bytes → Bool) (new : NewArray)
    (cs : List BufferedCall) (p : Restoring) :
    (∃ history s added,
      (BufferedSink.make bufSize).calls throws new cs = some (history, s) ∧
      history.map Prod.fst = cs ∧ s.bufSize = bufSize ∧ s.bufPos ≤ bufSize ∧
      s.buffered.length = s.bufPos ∧
      List.Forall₂ (fun call a => Contributes call.1 call.2 a) history added ∧
      s.passed.flatten ++ s.buffered = added.flatten ∧
      (∀ call ∈ history.getLast?, call.1 = .flush ∨ call.2 = .threw → s.bufPos = 0)) ∧
    (∃ e r, restore p ⟨none, []⟩ = some (e, r) ∧ ∀ file ∈ r.files, Own file ∧
      (file.ended = .returned → (∀ call ∈ file.calls, call.2 = .returned) →
        file.passed.flatten = (file.script.writes.map Prod.fst).flatten)) := by
  constructor
  · obtain ⟨history, s, added, hcalls, hfst, hinv, hsize, hadded, hstream, hlast⟩ :=
      (BufferedSink.make bufSize).calls_spec throws new (BufferedSink.inv_make bufSize) cs
    have hpos := hinv.bufPos_le
    rw [hsize] at hpos
    exact ⟨history, s, added, hcalls, hfst, hsize, hpos, BufferedSink.length_buffered hinv, hadded,
      hstream, hlast⟩
  · obtain ⟨e, r, files, hrestore, -, hfiles, hown⟩ := restore_keepsApart p ⟨none, []⟩ nofun
    refine ⟨e, r, hrestore, ?_⟩
    rw [hfiles, List.nil_append]
    exact fun file hfile => ⟨hown file hfile, (hown file hfile).complete⟩

end RestoreBuffers
end Util
end Archinix
