import Archinix.Util.SourceToSink

/-!
# Runs of sourceToSink

`sourceToSink_lossless`: with a reader that keeps reading until `EndOfFile`, the pipe
delivers exactly what is written, ends once and for all, and neither side sleeps
through what it waits for.
-/

namespace Archinix
namespace Util
namespace SourceToSink

open Foundation

/-! ## What holds on every run -/

namespace Producer

/-- What the producer has still to put into the ring. -/
def inHand (producing : Bytes) : Producer → Bytes
  | .writing chunks _ => chunks.flatten
  | .pushing chunks _ => producing ++ chunks.flatten
  | .waiting chunks _ => producing ++ chunks.flatten
  | .woken chunks _ => producing ++ chunks.flatten
  | .notifyFull chunks _ => chunks.flatten
  | _ => []

/-- `finish()` has been called. -/
@[grind =]
def isFinishing : Producer → Bool
  | .idle => false
  | .writing _ finishing => finishing
  | .pushing _ finishing => finishing
  | .waiting _ finishing => finishing
  | .woken _ finishing => finishing
  | .notifyFull _ finishing => finishing
  | _ => true

/-- The producer is past its setting of `closed`. -/
@[grind =]
def isClosing : Producer → Bool
  | .notifyClosed _ => true
  | .joining _ => true
  | .finished => true
  | .threw => true
  | _ => false

/-- The worker has been started and not been joined. -/
@[grind =]
def needsWorker : Producer → Bool
  | .pushing _ _ => true
  | .waiting _ _ => true
  | .woken _ _ => true
  | .notifyFull _ _ => true
  | .notifyClosed _ => true
  | .joining _ => true
  | _ => false

@[grind =]
def isNotifyFull : Producer → Bool
  | .notifyFull _ _ => true
  | _ => false

@[grind =]
def isNotifyClosed : Producer → Bool
  | .notifyClosed _ => true
  | _ => false

@[grind =]
def isWaiting : Producer → Bool
  | .waiting _ _ => true
  | _ => false

@[grind =]
def isOver : Producer → Bool
  | .finished => true
  | .threw => true
  | _ => false

end Producer

namespace Reader

@[grind =]
def isWaiting : Reader → Bool
  | .waiting _ => true
  | _ => false

/-- The reader has returned. -/
@[grind =]
def isDone : Reader → Bool
  | .quitting => true
  | .notifyFree => true
  | .exited => true
  | _ => false

/-- Inside `pull`, with the spent buffer handed back. -/
@[grind =]
def isRecycled : Reader → Bool
  | .waiting _ => true
  | .woken _ => true
  | _ => false

end Reader

/-- What has gone into the ring: what has been received, then the rest of the chunk being
read, and the chunks not taken yet. -/
def State.handed (s : State) : Bytes :=
  s.received ++ s.consuming.drop s.consumed ++ s.full.flatten

/-- No byte is lost or duplicated: what has been written has gone into the ring, or the
producer still holds it. -/
structure Flow (s : State) : Prop where
  conserved : s.written = s.handed ++ s.producer.inHand s.producing ++ s.buffer
  consumed : s.consumed ≤ s.consuming.length
  inBounds : s.overrun = false

/-- Where the two threads can be, together. -/
@[grind cases]
structure Phase (s : State) : Prop where
  stopping : ∀ k, s.producer = .stopping k ∨ s.producer = .notifyClosed k ∨ s.producer = .joining k →
    k = .finish
  flushed : s.producer.isFinishing = true → s.buffer = []
  closed : s.closed = true → s.producer.isClosing = true
  closing : s.producer.isClosing = true → s.closed = true ∨ s.reader = .absent
  started : s.producer.needsWorker = true → s.joinable = true
  absent : s.reader = .absent → s.joinable = false ∧ s.full = [] ∧ s.consuming = [] ∧ s.consumed = 0
  joined : s.joinable = false → s.reader = .absent ∨ (s.reader = .exited ∧ s.producer.isOver = true)
  ended : s.producer.isOver = true → s.reader = .absent ∨ s.reader = .exited
  eof : 0 < s.eofs → s.closed = true ∧ s.full = [] ∧ s.consuming = [] ∧ s.consumed = 0 ∧
    s.reader.isRecycled = false
  done : s.quit = true ∨ s.reader.isDone = true → 0 < s.eofs
  pulling : ∀ outLen, s.reader = .pulling outLen → s.consumed = s.consuming.length
  recycled : s.reader.isRecycled = true → s.consuming = [] ∧ s.consumed = 0
  bounded : s.full.length ≤ sourceToSinkQueued
  /-- The producer waits only on a full ring. -/
  room : s.producer.isWaiting = true → s.full.length = sourceToSinkQueued
  /-- The reader waits only on an empty ring, or its notification is due. -/
  chunk : s.reader.isWaiting = true → s.full = [] ∨ s.producer.isNotifyFull = true
  /-- Neither does it wait for the end, unless that notification is due. -/
  end_ : s.reader.isWaiting = true → s.closed = true → s.producer.isNotifyClosed = true

section Steps

variable {s t : State}

/-! ### What the steps do -/

theorem notifyFull_cases (s : State) :
    s.notifyFull = s ∧ s.reader.isWaiting = false ∨
    ∃ outLen, s.reader = .waiting outLen ∧ s.notifyFull = { s with reader := .woken outLen } := by
  unfold State.notifyFull
  split
  · rename_i outLen hreader
    exact Or.inr ⟨outLen, hreader, rfl⟩
  · rename_i hreader
    refine Or.inl ⟨rfl, ?_⟩
    cases hpc : s.reader <;> first | rfl | exact absurd hpc (hreader _)

theorem notifyFree_cases (s : State) :
    s.notifyFree = s ∧ s.producer.isWaiting = false ∨
    ∃ chunks finishing, s.producer = .waiting chunks finishing ∧
      s.notifyFree = { s with producer := .woken chunks finishing } := by
  unfold State.notifyFree
  split
  · rename_i chunks finishing hproducer
    exact Or.inr ⟨chunks, finishing, hproducer, rfl⟩
  · rename_i hproducer
    refine Or.inl ⟨rfl, ?_⟩
    cases hpc : s.producer <;> first | rfl | exact absurd hpc (hproducer _ _)

theorem recycle_eq (s : State) :
    ∃ free, s.recycle = { s with free := free, consuming := [], consumed := 0 } := by
  unfold State.recycle
  split
  · rename_i hempty
    rw [← List.isEmpty_iff.mp hempty]
    exact ⟨s.free, rfl⟩
  · exact ⟨_, rfl⟩

theorem copy_eq {outLen : Nat} (h : s.consumed ≤ s.consuming.length) :
    s.copy outLen = { s with
      received := s.received ++ (s.consuming.drop s.consumed).take
        (min outLen (s.consuming.length - s.consumed))
      consumed := s.consumed + min outLen (s.consuming.length - s.consumed)
      reader := .ready } := by
  rw [State.copy, if_neg (Nat.not_lt.mpr h)]

/-- `cvFull.wait` ends with the end of the stream, with a chunk, or not at all; taking a
chunk out of a full ring wakes the producer. -/
theorem take_cases (outLen : Nat) (hconsumed : s.consumed = 0) :
    (s.closed = true ∧ s.full = [] ∧
      s.take outLen = { s with eofs := s.eofs + 1, reader := .ready }) ∨
    (∃ chunk full producer, s.full = chunk :: full ∧
      (producer = s.producer ∧ (full.length = sourceToSinkQueued - 1 → s.producer.isWaiting = false) ∨
        ∃ chunks finishing, s.producer = .waiting chunks finishing ∧
          producer = .woken chunks finishing) ∧
      s.take outLen = { s with
        consuming := chunk
        full := full
        producer := producer
        received := s.received ++ chunk.take (min outLen chunk.length)
        consumed := min outLen chunk.length
        reader := .ready }) ∨
    (s.closed = false ∧ s.full = [] ∧ s.take outLen = { s with reader := .waiting outLen }) := by
  unfold State.take
  cases hfull : s.full with
  | nil =>
      cases hclosed : s.closed with
      | true => exact Or.inl ⟨rfl, rfl, by simp⟩
      | false => exact Or.inr (Or.inr ⟨rfl, rfl, by simp⟩)
  | cons chunk full =>
      refine Or.inr (Or.inl ?_)
      by_cases hlength : full.length = sourceToSinkQueued - 1
      · rcases notifyFree_cases { s with consuming := chunk, full := full } with
          ⟨hsame, hwait⟩ | ⟨chunks, finishing, hproducer, hwoken⟩
        · refine ⟨chunk, full, s.producer, rfl, Or.inl ⟨rfl, fun _ => hwait⟩, ?_⟩
          simp only [List.isEmpty_cons, Bool.not_false, Bool.or_true, if_true, hlength, hsame]
          rw [copy_eq (by simp [hconsumed])]
          simp [hconsumed]
        · refine ⟨chunk, full, .woken chunks finishing, rfl, Or.inr ⟨_, _, hproducer, rfl⟩, ?_⟩
          simp only [List.isEmpty_cons, Bool.not_false, Bool.or_true, if_true, hlength, hwoken]
          rw [copy_eq (by simp [hconsumed])]
          simp [hconsumed]
      · refine ⟨chunk, full, s.producer, rfl, Or.inl ⟨rfl, fun h => absurd h hlength⟩, ?_⟩
        simp only [List.isEmpty_cons, Bool.not_false, Bool.or_true, if_true, hlength, if_false]
        rw [copy_eq (by simp [hconsumed])]
        simp [hconsumed]

/-! ### What goes into the ring comes out of it -/

theorem handed_copy {outLen : Nat} (h : s.consumed ≤ s.consuming.length) :
    (s.copy outLen).handed = s.handed := by
  rw [copy_eq h]
  simp only [State.handed, List.append_assoc, List.append_cancel_left_eq]
  rw [← List.append_assoc (List.take _ _), ← List.drop_drop, List.take_append_drop]

theorem handed_recycle (h : s.consumed = s.consuming.length) : s.recycle.handed = s.handed := by
  obtain ⟨free, heq⟩ := recycle_eq s
  rw [heq, State.handed, State.handed, h, List.drop_length, List.drop_nil]

theorem handed_take {outLen : Nat} (hconsumed : s.consumed = 0) (hempty : s.consuming = []) :
    (s.take outLen).handed = s.handed := by
  rcases take_cases outLen hconsumed with
    ⟨-, -, heq⟩ | ⟨chunk, full, producer, hfull, -, heq⟩ | ⟨-, -, heq⟩
  · rw [heq]
    rfl
  · rw [heq]
    show s.received ++ chunk.take _ ++ chunk.drop _ ++ full.flatten =
      s.received ++ s.consuming.drop s.consumed ++ s.full.flatten
    rw [List.append_assoc s.received, List.take_append_drop, hempty, hfull]
    simp
  · rw [heq]
    rfl

/-- The chunk in hand goes into the ring, unless the reader is gone or the ring is full. -/
theorem push_cases (s : State) (chunks : List Bytes) (finishing : Bool) :
    (s.quit = true ∧ s.push chunks finishing =
      { s with producer := .stopping (.write chunks finishing) }) ∨
    (s.quit = false ∧ ∃ producing free producer, s.push chunks finishing = { s with
        full := s.full ++ [s.producing], producing := producing, free := free, producer := producer } ∧
      s.full.length < sourceToSinkQueued ∧
      (producer = .notifyFull chunks finishing ∧ s.full = [] ∨
        producer = .writing chunks finishing ∧ s.full ≠ [])) ∨
    (s.quit = false ∧ sourceToSinkQueued ≤ s.full.length ∧
      s.push chunks finishing = { s with producer := .waiting chunks finishing }) := by
  unfold State.push
  cases hquit : s.quit with
  | true => exact Or.inl ⟨rfl, by simp⟩
  | false =>
      by_cases hroom : s.full.length < sourceToSinkQueued
      · let producer : Producer :=
          if (s.full ++ [s.producing]).length = 1 then .notifyFull chunks finishing
          else .writing chunks finishing
        refine Or.inr (Or.inl ⟨rfl, s.free.getLastD [], s.free.dropLast, producer, ?_, hroom, ?_⟩)
        · simp only [hroom, decide_true, Bool.or_true, if_true, Bool.false_eq_true, if_false]
          rfl
        · cases hfull : s.full with
          | nil => exact Or.inl ⟨by simp [producer, hfull], rfl⟩
          | cons chunk full => exact Or.inr ⟨by simp [producer, hfull], by simp⟩
      · refine Or.inr (Or.inr ⟨rfl, Nat.le_of_not_lt hroom, ?_⟩)
        simp [hroom]

/-! ### No byte is lost -/

/-- `read` from the chunk at hand. -/
theorem Flow.copy (hs : Flow s) (outLen : Nat) : Flow (s.copy outLen) := by
  have hhanded : (s.copy outLen).handed = s.handed := handed_copy hs.consumed
  have hbound := hs.consumed
  rw [copy_eq hs.consumed] at hhanded ⊢
  refine ⟨?_, by simp; omega, hs.inBounds⟩
  rw [hhanded]
  exact hs.conserved

theorem Flow.recycle (hs : Flow s) (h : s.consumed = s.consuming.length) : Flow s.recycle := by
  have hhanded := handed_recycle h
  obtain ⟨free, heq⟩ := recycle_eq s
  rw [heq] at hhanded ⊢
  refine ⟨?_, Nat.le_refl _, hs.inBounds⟩
  rw [hhanded]
  exact hs.conserved

theorem Flow.take (hs : Flow s) {outLen : Nat} (hconsumed : s.consumed = 0) (hempty : s.consuming = []) :
    Flow (s.take outLen) := by
  have hhanded : (s.take outLen).handed = s.handed := handed_take hconsumed hempty
  rcases take_cases outLen hconsumed with
    ⟨-, -, heq⟩ | ⟨chunk, full, producer, hfull, hproducer, heq⟩ | ⟨-, -, heq⟩
  · rw [heq]
    exact ⟨hs.conserved, hs.consumed, hs.inBounds⟩
  · have hhand : producer.inHand s.producing = s.producer.inHand s.producing := by
      rcases hproducer with ⟨rfl, -⟩ | ⟨chunks, finishing, hwait, rfl⟩
      · rfl
      · rw [hwait]
        rfl
    rw [heq] at hhanded ⊢
    refine ⟨?_, by simp, hs.inBounds⟩
    rw [hhanded]
    show s.written = s.handed ++ producer.inHand s.producing ++ s.buffer
    rw [hhand]
    exact hs.conserved
  · rw [heq]
    exact ⟨hs.conserved, hs.consumed, hs.inBounds⟩

/-- A step that moves no bytes. -/
theorem Flow.still (hs : Flow s) (hbytes : t.written = s.written ∧ t.received = s.received ∧
      t.consuming = s.consuming ∧ t.consumed = s.consumed ∧ t.full = s.full ∧ t.buffer = s.buffer ∧
      t.overrun = s.overrun)
    (hhand : t.producer.inHand t.producing = s.producer.inHand s.producing) : Flow t := by
  obtain ⟨hwritten, hreceived, hconsuming, hconsumed, hfull, hbuffer, hoverrun⟩ := hbytes
  refine ⟨?_, ?_, ?_⟩
  · rw [State.handed, hwritten, hreceived, hconsuming, hconsumed, hfull, hbuffer, hhand]
    exact hs.conserved
  · rw [hconsumed, hconsuming]
    exact hs.consumed
  · rw [hoverrun]
    exact hs.inBounds

theorem Flow.notifyFull (hs : Flow s) : Flow s.notifyFull := by
  rcases notifyFull_cases s with ⟨heq, -⟩ | ⟨outLen, -, heq⟩
  · rw [heq]
    exact hs
  · rw [heq]
    exact hs.still ⟨rfl, rfl, rfl, rfl, rfl, rfl, rfl⟩ rfl

theorem notifyFull_producer (s : State) :
    s.notifyFull.producer = s.producer ∧ s.notifyFull.producing = s.producing := by
  rcases notifyFull_cases s with ⟨heq, -⟩ | ⟨outLen, -, heq⟩ <;> rw [heq] <;> exact ⟨rfl, rfl⟩

/-- The chunk in hand goes into the ring. -/
theorem Flow.push (hs : Flow s) {chunks : List Bytes} {finishing : Bool}
    (hhand : s.producer.inHand s.producing = s.producing ++ chunks.flatten) (hquit : s.quit = false) :
    Flow (s.push chunks finishing) := by
  have hconserved := hs.conserved
  rw [hhand] at hconserved
  rcases push_cases s chunks finishing with
    ⟨hgone, -⟩ | ⟨-, producing, free, producer, heq, -, hproducer⟩ | ⟨-, -, heq⟩
  · rw [hquit] at hgone
    cases hgone
  · have hnext : producer.inHand producing = chunks.flatten := by
      rcases hproducer with ⟨rfl, -⟩ | ⟨rfl, -⟩ <;> rfl
    rw [heq]
    refine ⟨?_, hs.consumed, hs.inBounds⟩
    show s.written = s.received ++ s.consuming.drop s.consumed ++ (s.full ++ [s.producing]).flatten ++
      producer.inHand producing ++ s.buffer
    rw [hconserved, hnext, State.handed]
    simp
  · rw [heq]
    exact hs.still ⟨rfl, rfl, rfl, rfl, rfl, rfl, rfl⟩ hhand.symm

theorem Flow.producerStep (hs : Flow s) (hphase : Phase s) (h : s.producerStep = some t) : Flow t := by
  unfold State.producerStep at h
  have hopen : s.producer.isClosing = false → s.quit = false := by
    intro hclosing
    by_contra hquit
    have heof := hphase.done (Or.inl (Bool.eq_true_of_not_eq_false hquit))
    have hclosed := hphase.closed (hphase.eof heof).1
    rw [hclosing] at hclosed
    cases hclosed
  split at h
  · rename_i hpc
    obtain rfl := Option.some.inj h
    exact hs.still ⟨rfl, rfl, rfl, rfl, rfl, rfl, rfl⟩ (by rw [hpc]; rfl)
  · rename_i hpc
    obtain rfl := Option.some.inj h
    exact hs.still ⟨rfl, rfl, rfl, rfl, rfl, rfl, rfl⟩ (by rw [hpc]; rfl)
  · rename_i chunk chunks finishing hpc
    split at h
    · rename_i hempty
      obtain rfl := Option.some.inj h
      refine hs.still ⟨rfl, rfl, rfl, rfl, rfl, rfl, rfl⟩ ?_
      rw [hpc, List.isEmpty_iff.mp hempty]
      rfl
    · obtain rfl := Option.some.inj h
      refine hs.still ⟨rfl, rfl, rfl, rfl, rfl, rfl, rfl⟩ ?_
      rw [hpc]
      exact List.flatten_cons.symm
  · rename_i chunks finishing hpc
    obtain rfl := Option.some.inj h
    exact hs.push (by rw [hpc]; rfl) (hopen (by rw [hpc]; rfl))
  · rename_i chunks finishing hpc
    obtain rfl := Option.some.inj h
    exact hs.push (by rw [hpc]; rfl) (hopen (by rw [hpc]; rfl))
  · rename_i chunks finishing hpc
    obtain rfl := Option.some.inj h
    refine hs.notifyFull.still ⟨rfl, rfl, rfl, rfl, rfl, rfl, rfl⟩ ?_
    rw [(notifyFull_producer s).1, hpc]
    rfl
  · rename_i k hpc
    obtain rfl := hphase.stopping k (Or.inl hpc)
    split at h
    · obtain rfl := Option.some.inj h
      exact hs.still ⟨rfl, rfl, rfl, rfl, rfl, rfl, rfl⟩ (by rw [hpc]; rfl)
    · obtain rfl := Option.some.inj h
      exact hs.still ⟨rfl, rfl, rfl, rfl, rfl, rfl, rfl⟩ (by rw [hpc]; rfl)
  · rename_i k hpc
    obtain rfl := Option.some.inj h
    refine hs.notifyFull.still ⟨rfl, rfl, rfl, rfl, rfl, rfl, rfl⟩ ?_
    rw [(notifyFull_producer s).1, hpc]
    rfl
  · rename_i k hpc
    obtain rfl := hphase.stopping k (Or.inr (Or.inr hpc))
    split at h
    · split at h
      · obtain rfl := Option.some.inj h
        exact hs.still ⟨rfl, rfl, rfl, rfl, rfl, rfl, rfl⟩ (by rw [hpc]; rfl)
      · obtain rfl := Option.some.inj h
        exact hs.still ⟨rfl, rfl, rfl, rfl, rfl, rfl, rfl⟩ (by rw [hpc]; rfl)
    · cases h
  · cases h

theorem Flow.readerStep (hs : Flow s) (hphase : Phase s) (h : s.readerStep = some t) : Flow t := by
  unfold State.readerStep at h
  split at h
  · rename_i outLen hpc
    obtain rfl := Option.some.inj h
    have hrecycle := hs.recycle (hphase.pulling outLen hpc)
    obtain ⟨free, heq⟩ := recycle_eq s
    exact hrecycle.take (by rw [heq]) (by rw [heq])
  · rename_i outLen hpc
    obtain rfl := Option.some.inj h
    obtain ⟨hempty, hconsumed⟩ := hphase.recycled (by rw [hpc]; rfl)
    exact hs.take hconsumed hempty
  · obtain rfl := Option.some.inj h
    exact hs.still ⟨rfl, rfl, rfl, rfl, rfl, rfl, rfl⟩ rfl
  · obtain rfl := Option.some.inj h
    rcases notifyFree_cases s with ⟨heq, -⟩ | ⟨chunks, finishing, hpc, heq⟩
    · rw [heq]
      exact hs.still ⟨rfl, rfl, rfl, rfl, rfl, rfl, rfl⟩ rfl
    · rw [heq]
      exact hs.still ⟨rfl, rfl, rfl, rfl, rfl, rfl, rfl⟩ (by rw [hpc]; rfl)
  · cases h

theorem Flow.next {e : Event} (hs : Flow s) (hphase : Phase s) (h : step s e = some t) : Flow t := by
  cases e with
  | write data =>
      simp only [SourceToSink.step] at h
      split at h
      · rename_i hpc
        obtain rfl := Option.some.inj h
        refine ⟨?_, hs.consumed, hs.inBounds⟩
        have hconserved := hs.conserved
        rw [hpc] at hconserved
        show s.written ++ data = s.handed ++
          (bufferedWrite bufSize s.buffer data).1.flatten ++ (bufferedWrite bufSize s.buffer data).2
        rw [List.append_assoc, bufferedWrite_flatten, hconserved]
        simp [Producer.inHand]
      · cases h
  | finish =>
      simp only [SourceToSink.step] at h
      split at h
      · rename_i hpc
        obtain rfl := Option.some.inj h
        refine ⟨?_, hs.consumed, hs.inBounds⟩
        have hconserved := hs.conserved
        rw [hpc] at hconserved
        show s.written = s.handed ++ (flush s.buffer).flatten ++ []
        rw [flush_flatten, hconserved]
        simp [Producer.inHand]
      · cases h
  | producer => exact hs.producerStep hphase h
  | producerSpurious =>
      simp only [SourceToSink.step] at h
      split at h
      · rename_i hpc
        obtain rfl := Option.some.inj h
        exact hs.still ⟨rfl, rfl, rfl, rfl, rfl, rfl, rfl⟩ (by rw [hpc]; rfl)
      · cases h
  | read outLen =>
      simp only [SourceToSink.step] at h
      split at h
      · split at h
        · obtain rfl := Option.some.inj h
          exact hs.still ⟨rfl, rfl, rfl, rfl, rfl, rfl, rfl⟩ rfl
        · obtain rfl := Option.some.inj h
          exact hs.copy outLen
      · cases h
  | reader => exact hs.readerStep hphase h
  | readerSpurious =>
      simp only [SourceToSink.step] at h
      split at h
      · obtain rfl := Option.some.inj h
        exact hs.still ⟨rfl, rfl, rfl, rfl, rfl, rfl, rfl⟩ rfl
      · cases h
  | readerEnd failed =>
      simp only [SourceToSink.step] at h
      split at h
      · obtain rfl := Option.some.inj h
        exact hs.still ⟨rfl, rfl, rfl, rfl, rfl, rfl, rfl⟩ rfl
      · cases h

/-! ### Where the threads are -/

theorem Phase.push (hs : Phase s) {chunks : List Bytes} {finishing : Bool}
    (hpc : s.producer = .pushing chunks finishing ∨ s.producer = .woken chunks finishing) :
    Phase (s.push chunks finishing) := by
  -- before `closed` the reader has not ended
  have hquit : s.quit = false := by
    by_contra hquit
    have heof := hs.done (Or.inl (Bool.eq_true_of_not_eq_false hquit))
    have hclosed := hs.closed (hs.eof heof).1
    rcases hpc with hpc | hpc <;> rw [hpc] at hclosed <;> cases hclosed
  unfold State.push
  simp only [hquit, Bool.false_or, Bool.false_eq_true, if_false, decide_eq_true_eq]
  split
  · -- the first chunk of an empty ring is the one the reader may be waiting for
    split
    · constructor <;> grind -linarith
    · constructor <;> grind -linarith
  · constructor <;> grind -linarith

theorem Phase.producerStep (hs : Phase s) (h : s.producerStep = some t) : Phase t := by
  unfold State.producerStep at h
  split at h
  · obtain rfl := Option.some.inj h
    constructor <;> grind -linarith
  · obtain rfl := Option.some.inj h
    constructor <;> grind -linarith
  · split at h
    · obtain rfl := Option.some.inj h
      constructor <;> grind -linarith
    · -- the first chunk starts the worker
      obtain rfl := Option.some.inj h
      constructor <;> grind -linarith
  · rename_i hpc
    obtain rfl := Option.some.inj h
    exact hs.push (Or.inl hpc)
  · rename_i hpc
    obtain rfl := Option.some.inj h
    exact hs.push (Or.inr hpc)
  · obtain rfl := Option.some.inj h
    rcases notifyFull_cases s with ⟨heq, hawake⟩ | ⟨outLen, hreader, heq⟩
    · rw [heq]
      constructor <;> grind -linarith
    · rw [heq]
      constructor <;> grind -linarith
  · rename_i k hpc
    obtain rfl := hs.stopping k (Or.inl hpc)
    split at h
    · obtain rfl := Option.some.inj h
      constructor <;> grind -linarith
    · -- nothing was ever written
      obtain rfl := Option.some.inj h
      unfold State.resume
      constructor <;> grind -linarith
  · obtain rfl := Option.some.inj h
    rcases notifyFull_cases s with ⟨heq, hawake⟩ | ⟨outLen, hreader, heq⟩
    · rw [heq]
      constructor <;> grind -linarith
    · rw [heq]
      constructor <;> grind -linarith
  · rename_i k hpc
    obtain rfl := hs.stopping k (Or.inr (Or.inr hpc))
    split at h
    · split at h
      · obtain rfl := Option.some.inj h
        constructor <;> grind -linarith
      · obtain rfl := Option.some.inj h
        unfold State.resume
        constructor <;> grind -linarith
    · cases h
  · cases h

theorem Phase.recycle (hs : Phase s) : Phase s.recycle := by
  obtain ⟨free, heq⟩ := recycle_eq s
  rw [heq]
  constructor <;> grind -linarith

theorem Phase.take (hs : Phase s) {outLen : Nat} (hpc : s.reader = .pulling outLen ∨ s.reader = .woken outLen)
    (hempty : s.consuming = []) (hconsumed : s.consumed = 0) : Phase (s.take outLen) := by
  rcases take_cases outLen hconsumed with
    ⟨hclosed, hfull, heq⟩ | ⟨chunk, full, producer, hfull, hproducer, heq⟩ | ⟨hopen, hfull, heq⟩
  · rw [heq]
    constructor <;> grind -linarith
  · rw [heq]
    have hroom := hs.room
    have hbounded := hs.bounded
    rw [hfull, List.length_cons] at hroom hbounded
    rcases hproducer with ⟨rfl, hwait⟩ | ⟨chunks, finishing, hwait, rfl⟩
    · constructor <;> grind -linarith
    · constructor <;> grind -linarith
  · rw [heq]
    constructor <;> grind -linarith

theorem Phase.readerStep (hs : Phase s) (h : s.readerStep = some t) : Phase t := by
  unfold State.readerStep at h
  split at h
  · rename_i outLen hpc
    obtain rfl := Option.some.inj h
    have hrecycle := hs.recycle
    obtain ⟨free, heq⟩ := recycle_eq s
    exact hrecycle.take (by rw [heq]; exact Or.inl hpc) (by rw [heq]) (by rw [heq])
  · rename_i outLen hpc
    obtain rfl := Option.some.inj h
    obtain ⟨hempty, hconsumed⟩ := hs.recycled (by rw [hpc]; rfl)
    exact hs.take (Or.inr hpc) hempty hconsumed
  · obtain rfl := Option.some.inj h
    constructor <;> grind -linarith
  · obtain rfl := Option.some.inj h
    rcases notifyFree_cases s with ⟨heq, -⟩ | ⟨chunks, finishing, hpc, heq⟩
    · rw [heq]
      constructor <;> grind -linarith
    · rw [heq]
      constructor <;> grind -linarith
  · cases h

theorem Phase.copy (hs : Phase s) (hflow : Flow s) (hpc : s.reader = .ready)
    (hmore : s.consumed ≠ s.consuming.length) (outLen : Nat) : Phase (s.copy outLen) := by
  rw [copy_eq hflow.consumed]
  constructor <;> grind -linarith

theorem Phase.next {e : Event} (hs : Phase s) (hflow : Flow s) (hkeeps : KeepsReading s e)
    (h : step s e = some t) : Phase t := by
  cases e with
  | write data =>
      simp only [SourceToSink.step] at h
      split at h
      · obtain rfl := Option.some.inj h
        constructor <;> grind -linarith
      · cases h
  | finish =>
      simp only [SourceToSink.step] at h
      split at h
      · obtain rfl := Option.some.inj h
        constructor <;> grind -linarith
      · cases h
  | producer => exact hs.producerStep h
  | producerSpurious =>
      simp only [SourceToSink.step] at h
      split at h
      · obtain rfl := Option.some.inj h
        constructor <;> grind -linarith
      · cases h
  | read outLen =>
      simp only [SourceToSink.step] at h
      split at h
      · rename_i hpc
        split at h
        · obtain rfl := Option.some.inj h
          constructor <;> grind -linarith
        · rename_i hmore
          obtain rfl := Option.some.inj h
          exact hs.copy hflow hpc hmore outLen
      · cases h
  | reader => exact hs.readerStep h
  | readerSpurious =>
      simp only [SourceToSink.step] at h
      split at h
      · obtain rfl := Option.some.inj h
        constructor <;> grind -linarith
      · cases h
  | readerEnd failed =>
      have heof := hkeeps failed rfl
      simp only [SourceToSink.step] at h
      split at h
      · obtain rfl := Option.some.inj h
        constructor <;> grind -linarith
      · cases h

theorem flow_initial : Flow initial := ⟨rfl, Nat.le_refl _, rfl⟩

theorem phase_initial : Phase initial := by
  constructor <;> simp [initial, Producer.isFinishing, Producer.isClosing, Producer.needsWorker,
    Producer.isOver, Producer.isWaiting, Reader.isDone, Reader.isRecycled, Reader.isWaiting]

theorem flow_phase_of_reachable (h : (system.restrict KeepsReading).Reachable s) :
    Flow s ∧ Phase s := by
  refine h.invariant (P := fun s => Flow s ∧ Phase s) ?_ ?_
  · rintro _ rfl
    exact ⟨flow_initial, phase_initial⟩
  · rintro s e t ⟨hflow, hphase⟩ ⟨hstep, hkeeps⟩
    exact ⟨hflow.next hphase hstep, hphase.next hflow hkeeps hstep⟩

end Steps

/-! ## The pipe -/

section Pipe

variable {s t : State}

/-- Once the reader has seen the end, it has seen everything. -/
theorem Flow.delivered (hs : Flow s) (hphase : Phase s) (heof : 0 < s.eofs) :
    s.received = s.written := by
  obtain ⟨hclosed, hfull, hconsuming, -, -⟩ := hphase.eof heof
  have hclosing := hphase.closed hclosed
  have hconserved := hs.conserved
  have hbuffer : s.buffer = [] := by
    refine hphase.flushed ?_
    cases hpc : s.producer <;> rw [hpc] at hclosing <;> first | rfl | cases hclosing
  have hhand : s.producer.inHand s.producing = [] := by
    cases hpc : s.producer <;> rw [hpc] at hclosing <;> first | rfl | cases hclosing
  rw [State.handed, hfull, hconsuming, hbuffer, hhand] at hconserved
  simpa using hconserved.symm

/-- The worker is not started only if nothing was written. -/
theorem Flow.finished (hs : Flow s) (hphase : Phase s) (hover : s.producer.isOver = true) :
    s.received = s.written := by
  rcases hphase.ended hover with habsent | hexited
  · obtain ⟨-, hfull, hconsuming, -⟩ := hphase.absent habsent
    have hconserved := hs.conserved
    have hbuffer : s.buffer = [] := by
      refine hphase.flushed ?_
      cases hpc : s.producer <;> rw [hpc] at hover <;> first | rfl | cases hover
    have hhand : s.producer.inHand s.producing = [] := by
      cases hpc : s.producer <;> rw [hpc] at hover <;> first | rfl | cases hover
    rw [State.handed, hfull, hconsuming, hbuffer, hhand] at hconserved
    simpa using hconserved.symm
  · exact hs.delivered hphase (hphase.done (Or.inr (by rw [hexited]; rfl)))

/-- Past its end the stream ends again. -/
theorem Phase.ends_again (hs : Phase s) (heof : 0 < s.eofs) {outLen : Nat}
    (hpc : s.reader = .pulling outLen) (h : step s .reader = some t) : t.eofs = s.eofs + 1 := by
  obtain ⟨hclosed, hfull, -, -, -⟩ := hs.eof heof
  obtain ⟨free, heq⟩ := recycle_eq s
  simp only [step, State.readerStep, hpc, heq] at h
  obtain rfl := Option.some.inj h
  simp [State.take, hclosed, hfull]

theorem Phase.read_again (hs : Phase s) (heof : 0 < s.eofs) {outLen : Nat}
    (h : step s (.read outLen) = some t) : t.reader = .pulling outLen := by
  obtain ⟨-, -, hconsuming, hconsumed, -⟩ := hs.eof heof
  simp only [step, hconsuming, hconsumed, List.length_nil, if_true] at h
  split at h
  · obtain rfl := Option.some.inj h
    rfl
  · cases h

/-- As long as the reader is there and not waiting, it can go on. -/
theorem reader_progress (habsent : s.reader ≠ .absent) (hexited : s.reader ≠ .exited)
    (hwait : s.reader.isWaiting = false) :
    ∃ e t, (e = .reader ∨ ∃ outLen, e = .read outLen) ∧ step s e = some t := by
  cases hpc : s.reader with
  | absent => exact absurd hpc habsent
  | exited => exact absurd hpc hexited
  | ready =>
      by_cases hmore : s.consumed = s.consuming.length
      · exact ⟨.read 1, _, Or.inr ⟨1, rfl⟩, by simp only [step, hpc, hmore, if_true]; rfl⟩
      · exact ⟨.read 1, _, Or.inr ⟨1, rfl⟩, by simp only [step, hpc, hmore, if_false]; rfl⟩
  | waiting outLen =>
      rw [hpc] at hwait
      cases hwait
  | pulling outLen => exact ⟨.reader, _, Or.inl rfl, by simp only [step, State.readerStep, hpc]; rfl⟩
  | woken outLen => exact ⟨.reader, _, Or.inl rfl, by simp only [step, State.readerStep, hpc]; rfl⟩
  | quitting => exact ⟨.reader, _, Or.inl rfl, by simp only [step, State.readerStep, hpc]; rfl⟩
  | notifyFree => exact ⟨.reader, _, Or.inl rfl, by simp only [step, State.readerStep, hpc]; rfl⟩

/-- A call of the producer never hangs. -/
theorem Phase.progress (hs : Phase s) (hidle : s.producer ≠ .idle) (hover : s.producer.isOver = false) :
    ∃ e t, (e = .producer ∨ e = .reader ∨ ∃ outLen, e = .read outLen) ∧ step s e = some t := by
  cases hpc : s.producer with
  | idle => exact absurd hpc hidle
  | finished =>
      rw [hpc] at hover
      cases hover
  | threw =>
      rw [hpc] at hover
      cases hover
  | waiting chunks finishing =>
      -- the ring is full, so the reader is not waiting for a chunk
      have hlength := hs.room (by rw [hpc]; rfl)
      have hfull : s.full ≠ [] := fun h => by rw [h] at hlength; cases hlength
      have hwait : s.reader.isWaiting = false := by
        by_contra hwait
        have hchunk := hs.chunk (Bool.eq_true_of_not_eq_false hwait)
        rw [hpc] at hchunk
        exact hchunk.elim hfull (by simp [Producer.isNotifyFull])
      have hexited : s.reader ≠ .exited := by
        intro hexited
        exact hfull (hs.eof (hs.done (Or.inr (by rw [hexited]; rfl)))).2.1
      obtain ⟨e, t, he, hstep⟩ := reader_progress (fun h => hfull (hs.absent h).2.1) hexited hwait
      exact ⟨e, t, Or.inr he, hstep⟩
  | joining k =>
      have hjoinable := hs.started (by rw [hpc]; rfl)
      by_cases hexited : s.reader = .exited
      · by_cases hfailure : s.failure = true
        · exact ⟨.producer, _, Or.inl rfl,
            by simp only [step, State.producerStep, hpc, hexited, hfailure, if_true]; rfl⟩
        · exact ⟨.producer, _, Or.inl rfl,
            by simp only [step, State.producerStep, hpc, hexited, hfailure]; rfl⟩
      · have habsent : s.reader ≠ .absent := by
          intro habsent
          rw [(hs.absent habsent).1] at hjoinable
          cases hjoinable
        have hwait : s.reader.isWaiting = false := by
          by_contra hwait
          have hclosed : s.closed = true := (hs.closing (by rw [hpc]; rfl)).resolve_right habsent
          have hnotify := hs.end_ (Bool.eq_true_of_not_eq_false hwait) hclosed
          rw [hpc] at hnotify
          cases hnotify
        obtain ⟨e, t, he, hstep⟩ := reader_progress habsent hexited hwait
        exact ⟨e, t, Or.inr he, hstep⟩
  | writing chunks finishing =>
      cases chunks with
      | nil =>
          cases finishing with
          | false => exact ⟨.producer, _, Or.inl rfl, by simp only [step, State.producerStep, hpc]; rfl⟩
          | true => exact ⟨.producer, _, Or.inl rfl, by simp only [step, State.producerStep, hpc]; rfl⟩
      | cons chunk chunks =>
          by_cases hempty : chunk.isEmpty = true
          · exact ⟨.producer, _, Or.inl rfl,
              by simp only [step, State.producerStep, hpc, hempty, if_true]; rfl⟩
          · exact ⟨.producer, _, Or.inl rfl, by simp only [step, State.producerStep, hpc, hempty]; rfl⟩
  | pushing chunks finishing =>
      exact ⟨.producer, _, Or.inl rfl, by simp only [step, State.producerStep, hpc]; rfl⟩
  | woken chunks finishing =>
      exact ⟨.producer, _, Or.inl rfl, by simp only [step, State.producerStep, hpc]; rfl⟩
  | notifyFull chunks finishing =>
      exact ⟨.producer, _, Or.inl rfl, by simp only [step, State.producerStep, hpc]; rfl⟩
  | stopping k =>
      by_cases hjoinable : s.joinable = true
      · exact ⟨.producer, _, Or.inl rfl,
          by simp only [step, State.producerStep, hpc, hjoinable, if_true]; rfl⟩
      · exact ⟨.producer, _, Or.inl rfl, by simp only [step, State.producerStep, hpc, hjoinable]; rfl⟩
  | notifyClosed k =>
      exact ⟨.producer, _, Or.inl rfl, by simp only [step, State.producerStep, hpc]; rfl⟩

/-- Whatever the writes, the sizes asked for and the order of the steps: the reader
receives what is written, in order; `EndOfFile` comes only after all of it, and comes
again; nobody waits without reason, and no call hangs. -/
theorem sourceToSink_lossless (h : (system.restrict KeepsReading).Reachable s) :
    s.received <+: s.written ∧ s.overrun = false ∧
    (0 < s.eofs → s.received = s.written ∧ s.producer.isFinishing = true ∧
      (∀ outLen t, step s (.read outLen) = some t → t.reader = .pulling outLen) ∧
      ∀ outLen t, s.reader = .pulling outLen → step s .reader = some t → t.eofs = s.eofs + 1) ∧
    (s.producer.isOver = true → s.received = s.written) ∧
    (s.producer.isWaiting = true → s.full.length = sourceToSinkQueued) ∧
    (s.reader.isWaiting = true → s.full = [] ∨ s.producer.isNotifyFull = true) ∧
    (s.reader.isWaiting = true → s.closed = true → s.producer.isNotifyClosed = true) ∧
    (s.producer ≠ .idle → s.producer.isOver = false →
      ∃ e t, (e = .producer ∨ e = .reader ∨ ∃ outLen, e = .read outLen) ∧ step s e = some t) := by
  obtain ⟨hflow, hphase⟩ := flow_phase_of_reachable h
  refine ⟨?_, hflow.inBounds, fun heof => ⟨hflow.delivered hphase heof, ?_, ?_, ?_⟩,
    hflow.finished hphase, hphase.room, hphase.chunk, hphase.end_, hphase.progress⟩
  · rw [hflow.conserved, State.handed]
    simp only [List.append_assoc]
    exact List.prefix_append _ _
  · have hclosing := hphase.closed (hphase.eof heof).1
    cases hpc : s.producer <;> rw [hpc] at hclosing <;> first | rfl | cases hclosing
  · exact fun outLen t hstep => hphase.read_again heof hstep
  · exact fun outLen t hpc hstep => hphase.ends_again heof hpc hstep

/-- Two bytes are written and read in one call, and the reader reads past the end. -/
theorem sourceToSink_lossless_example :
    ∃ s : State, (system.restrict KeepsReading).Reachable s ∧ s.eofs = 2 ∧ s.written = [1, 2] ∧
      s.received = s.written := by
  have hwrite : bufferedWrite bufSize [] [1, 2] = ([], [1, 2]) := by
    simp [bufferedWrite, bufSize]
  have hfirst : step initial (.write [1, 2]) = some { initial with
      buffer := [1, 2], written := [1, 2], producer := .writing [] false } := by
    simp [step, initial, hwrite]
  have hstart : (system.restrict KeepsReading).Reachable initial := .of_init rfl
  have hwritten := hstart.step ⟨hfirst, fun _ h => by cases h⟩
  have hrest := hwritten.of_follow
    [.producer, .finish, .producer, .producer, .producer, .read 5, .reader, .read 5, .reader,
      .producer, .producer, .producer, .reader, .read 5, .reader]
    (by intro l hl u failed heq; subst heq; simp at hl) rfl
  exact ⟨_, hrest, rfl, rfl, ((sourceToSink_lossless hrest).2.2.1 (by decide)).1⟩

end Pipe

end SourceToSink
end Util
end Archinix
