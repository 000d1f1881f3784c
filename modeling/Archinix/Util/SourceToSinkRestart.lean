import Archinix.Util.SourceToSinkRuns

/-!
# How often sourceToSink runs its reader

Runs with any reader, also one that returns before the end of the stream.  What has gone
into the ring is still a prefix of what has been written; but once a write has joined a
reader that returned early, the next chunk finds no joinable worker and starts another
one.
-/

namespace Archinix
namespace Util
namespace SourceToSink

open Foundation

/-- `writeUnbuffered` takes up a chunk. -/
def takesChunk (s : State) : Event → Bool
  | .producer =>
      match s.producer with
      | .writing (chunk :: _) _ => !chunk.isEmpty
      | _ => false
  | _ => false

/-- `writeUnbuffered` calls `start()`. -/
def starts (s : State) (e : Event) : Bool := takesChunk s e && !s.joinable

/-- One step, with a count of the calls of the reader. -/
def countedStep (s : State × Nat) (e : Event) : Option (State × Nat) :=
  (step s.1 e).map fun t => (t, s.2 + if starts s.1 e then 1 else 0)

def counted : TransitionSystem (State × Nat) Event := .ofStep (· = (initial, 0)) countedStep

/-- No chunk is taken up after a write has joined a reader that had returned. -/
def WritesToReader (s : State × Nat) (e : Event) : Prop :=
  takesChunk s.1 e = true → ¬ (s.1.quit = true ∧ s.1.joinable = false)

instance (s : State × Nat) (e : Event) : Decidable (WritesToReader s e) :=
  inferInstanceAs (Decidable (_ → _))

/-! ## With any reader -/

/-- Where the two threads can be, whatever the reader does. -/
@[grind cases]
structure Turn (s : State) : Prop where
  absent : s.reader = .absent → s.joinable = false ∧ s.quit = false
  joined : s.joinable = false → s.reader = .absent ∨ s.reader = .exited
  quit : s.reader = .notifyFree ∨ s.reader = .exited → s.quit = true
  /-- Only a write that finds the reader gone stops it. -/
  dropped : ∀ chunks finishing, s.producer = .stopping (.write chunks finishing) ∨
    s.producer = .notifyClosed (.write chunks finishing) ∨
    s.producer = .joining (.write chunks finishing) → s.quit = true
  pulling : ∀ outLen, s.reader = .pulling outLen → s.consumed = s.consuming.length
  recycled : ∀ outLen, s.reader = .waiting outLen ∨ s.reader = .woken outLen →
    s.consuming = [] ∧ s.consumed = 0
  consumed : s.consumed ≤ s.consuming.length

/-- What has gone into the ring is what was written first; all of it, and nothing else is
under way, until the reader is gone. -/
structure Ordered (s : State) : Prop where
  order : s.handed <+: s.written
  conserved : s.quit = false →
    s.written = s.handed ++ s.producer.inHand s.producing ++ s.buffer

section Steps

variable {s t : State}

theorem Turn.push (hs : Turn s) (chunks : List Bytes) (finishing : Bool) :
    Turn (s.push chunks finishing) := by
  rcases push_cases s chunks finishing with
    ⟨hquit, heq⟩ | ⟨hquit, producing, free, producer, heq, -, hproducer⟩ | ⟨hquit, -, heq⟩
  · rw [heq]
    constructor <;> grind -linarith
  · rw [heq]
    constructor <;> grind -linarith
  · rw [heq]
    constructor <;> grind -linarith

theorem Turn.producerStep (hs : Turn s) (h : s.producerStep = some t) : Turn t := by
  unfold State.producerStep at h
  split at h
  · obtain rfl := Option.some.inj h
    constructor <;> grind -linarith
  · obtain rfl := Option.some.inj h
    constructor <;> grind -linarith
  · split at h
    · obtain rfl := Option.some.inj h
      constructor <;> grind -linarith
    · obtain rfl := Option.some.inj h
      constructor <;> grind -linarith
  · obtain rfl := Option.some.inj h
    exact hs.push _ _
  · obtain rfl := Option.some.inj h
    exact hs.push _ _
  · obtain rfl := Option.some.inj h
    rcases notifyFull_cases s with ⟨heq, -⟩ | ⟨outLen, hreader, heq⟩
    · rw [heq]
      constructor <;> grind -linarith
    · rw [heq]
      constructor <;> grind -linarith
  · rename_i k hpc
    split at h
    · obtain rfl := Option.some.inj h
      constructor <;> grind -linarith
    · obtain rfl := Option.some.inj h
      cases k with
      | finish => constructor <;> grind -linarith [State.resume]
      | write chunks finishing => constructor <;> grind -linarith [State.resume]
  · obtain rfl := Option.some.inj h
    rcases notifyFull_cases s with ⟨heq, -⟩ | ⟨outLen, hreader, heq⟩
    · rw [heq]
      constructor <;> grind -linarith
    · rw [heq]
      constructor <;> grind -linarith
  · rename_i k hpc
    split at h
    · split at h
      · obtain rfl := Option.some.inj h
        constructor <;> grind -linarith
      · obtain rfl := Option.some.inj h
        cases k with
        | finish => constructor <;> grind -linarith [State.resume]
        | write chunks finishing => constructor <;> grind -linarith [State.resume]
    · cases h
  · cases h

theorem Turn.take (hs : Turn s) {outLen : Nat} (hpc : s.reader = .pulling outLen ∨ s.reader = .woken outLen)
    (hempty : s.consuming = []) (hconsumed : s.consumed = 0) : Turn (s.take outLen) := by
  rcases take_cases outLen hconsumed with
    ⟨hclosed, hfull, heq⟩ | ⟨chunk, full, producer, hfull, hproducer, heq⟩ | ⟨hopen, hfull, heq⟩
  · rw [heq]
    constructor <;> grind -linarith
  · rw [heq]
    rcases hproducer with ⟨rfl, hwait⟩ | ⟨chunks, finishing, hwait, rfl⟩
    · constructor <;> grind -linarith
    · constructor <;> grind -linarith
  · rw [heq]
    constructor <;> grind -linarith

theorem Turn.recycle (hs : Turn s) : Turn s.recycle := by
  obtain ⟨free, heq⟩ := recycle_eq s
  rw [heq]
  constructor <;> grind -linarith

theorem Turn.readerStep (hs : Turn s) (h : s.readerStep = some t) : Turn t := by
  unfold State.readerStep at h
  split at h
  · rename_i outLen hpc
    obtain rfl := Option.some.inj h
    have hrecycle := hs.recycle
    obtain ⟨free, heq⟩ := recycle_eq s
    exact hrecycle.take (by rw [heq]; exact Or.inl hpc) (by rw [heq]) (by rw [heq])
  · rename_i outLen hpc
    obtain rfl := Option.some.inj h
    obtain ⟨hempty, hconsumed⟩ := hs.recycled outLen (Or.inr hpc)
    exact hs.take (Or.inr hpc) hempty hconsumed
  · obtain rfl := Option.some.inj h
    constructor <;> grind -linarith
  · obtain rfl := Option.some.inj h
    rcases notifyFree_cases s with ⟨heq, -⟩ | ⟨chunks, finishing, hpc, heq⟩
    · rw [heq]
      constructor <;> grind -linarith
    · rw [heq]
      constructor <;> grind -linarith
  · cases h

theorem Turn.next {e : Event} (hs : Turn s) (h : step s e = some t) : Turn t := by
  cases e with
  | producer => exact hs.producerStep h
  | reader => exact hs.readerStep h
  | read outLen =>
      simp only [SourceToSink.step] at h
      split at h
      · split at h
        · obtain rfl := Option.some.inj h
          constructor <;> grind -linarith
        · obtain rfl := Option.some.inj h
          rw [copy_eq hs.consumed]
          constructor <;> grind -linarith
      · cases h
  | write data =>
      simp only [SourceToSink.step] at h
      split at h
      · obtain rfl := Option.some.inj h
        constructor <;> grind -linarith
      · cases h
  | finish =>
      simp only [SourceToSink.step] at h
      split at h
      · obtain rfl := Option.some.inj h
        constructor <;> grind -linarith
      · cases h
  | producerSpurious =>
      simp only [SourceToSink.step] at h
      split at h
      · obtain rfl := Option.some.inj h
        constructor <;> grind -linarith
      · cases h
  | readerSpurious =>
      simp only [SourceToSink.step] at h
      split at h
      · obtain rfl := Option.some.inj h
        constructor <;> grind -linarith
      · cases h
  | readerEnd failed =>
      simp only [SourceToSink.step] at h
      split at h
      · obtain rfl := Option.some.inj h
        constructor <;> grind -linarith
      · cases h

/-! ### The order of the bytes -/

/-- A step that puts nothing into the ring and takes nothing out of the producer's hands. -/
theorem Ordered.still (hs : Ordered s) (hbytes : t.written = s.written ∧ t.handed = s.handed)
    (hopen : t.quit = false → s.quit = false ∧ t.buffer = s.buffer ∧
      t.producer.inHand t.producing = s.producer.inHand s.producing) : Ordered t := by
  obtain ⟨hwritten, hhanded⟩ := hbytes
  constructor
  · rw [hwritten, hhanded]
    exact hs.order
  · intro hquit
    obtain ⟨hquit', hbuffer, hhand⟩ := hopen hquit
    rw [hwritten, hhanded, hbuffer, hhand]
    exact hs.conserved hquit'

theorem Ordered.push (hs : Ordered s) {chunks : List Bytes} {finishing : Bool}
    (hhand : s.producer.inHand s.producing = s.producing ++ chunks.flatten) :
    Ordered (s.push chunks finishing) := by
  rcases push_cases s chunks finishing with
    ⟨hgone, heq⟩ | ⟨hquit, producing, free, producer, heq, -, hproducer⟩ | ⟨hquit, -, heq⟩
  · -- the chunk in hand is dropped
    rw [heq]
    refine hs.still ⟨rfl, rfl⟩ fun hquit => ?_
    rw [show s.quit = true from hgone] at hquit
    cases hquit
  · have hconserved := hs.conserved hquit
    have hnext : producer.inHand producing = chunks.flatten := by
      rcases hproducer with ⟨rfl, -⟩ | ⟨rfl, -⟩ <;> rfl
    have hwritten : s.written = s.received ++ s.consuming.drop s.consumed ++
        (s.full ++ [s.producing]).flatten ++ chunks.flatten ++ s.buffer := by
      rw [hconserved, hhand, State.handed]
      simp
    rw [heq]
    constructor
    · show s.received ++ s.consuming.drop s.consumed ++ (s.full ++ [s.producing]).flatten <+: s.written
      rw [hwritten, List.append_assoc _ chunks.flatten]
      exact List.prefix_append _ _
    · intro _
      show s.written = s.received ++ s.consuming.drop s.consumed ++ (s.full ++ [s.producing]).flatten ++
        producer.inHand producing ++ s.buffer
      rw [hnext]
      exact hwritten
  · rw [heq]
    exact hs.still ⟨rfl, rfl⟩ fun h => ⟨h, rfl, hhand.symm⟩

theorem notifyFull_bytes (s : State) : s.notifyFull.written = s.written ∧
    s.notifyFull.handed = s.handed ∧ s.notifyFull.quit = s.quit ∧ s.notifyFull.buffer = s.buffer := by
  rcases notifyFull_cases s with ⟨heq, -⟩ | ⟨outLen, -, heq⟩ <;> rw [heq] <;>
    exact ⟨rfl, rfl, rfl, rfl⟩

/-- `stop()` returns: into `finish()`, or into a write whose chunk is lost. -/
theorem Ordered.resume (hs : Ordered s) (hturn : Turn s) {k : After}
    (hpc : s.producer = .stopping k ∨ s.producer = .notifyClosed k ∨ s.producer = .joining k)
    (joinable : Bool) : Ordered (({ s with joinable := joinable } : State).resume k) := by
  cases k with
  | finish =>
      refine hs.still ⟨rfl, rfl⟩ fun h => ⟨h, rfl, ?_⟩
      rcases hpc with hpc | hpc | hpc <;> rw [hpc] <;> rfl
  | write chunks finishing =>
      have hgone := hturn.dropped chunks finishing hpc
      refine hs.still ⟨rfl, rfl⟩ fun hquit => ?_
      rw [show s.quit = false from hquit] at hgone
      cases hgone

theorem Ordered.producerStep (hs : Ordered s) (hturn : Turn s) (h : s.producerStep = some t) :
    Ordered t := by
  obtain ⟨hwritten, hhanded, hquit, hbuffer⟩ := notifyFull_bytes s
  unfold State.producerStep at h
  split at h
  · rename_i hpc
    obtain rfl := Option.some.inj h
    exact hs.still ⟨rfl, rfl⟩ fun h => ⟨h, rfl, by rw [hpc]; rfl⟩
  · rename_i hpc
    obtain rfl := Option.some.inj h
    exact hs.still ⟨rfl, rfl⟩ fun h => ⟨h, rfl, by rw [hpc]; rfl⟩
  · rename_i chunk chunks finishing hpc
    split at h
    · rename_i hempty
      obtain rfl := Option.some.inj h
      refine hs.still ⟨rfl, rfl⟩ fun h => ⟨h, rfl, ?_⟩
      rw [hpc, List.isEmpty_iff.mp hempty]
      rfl
    · obtain rfl := Option.some.inj h
      refine hs.still ⟨rfl, rfl⟩ fun h => ⟨h, rfl, ?_⟩
      rw [hpc]
      exact List.flatten_cons.symm
  · rename_i hpc
    obtain rfl := Option.some.inj h
    exact hs.push (by rw [hpc]; rfl)
  · rename_i hpc
    obtain rfl := Option.some.inj h
    exact hs.push (by rw [hpc]; rfl)
  · rename_i hpc
    obtain rfl := Option.some.inj h
    refine hs.still ⟨hwritten, hhanded⟩ fun h => ⟨hquit.symm.trans h, hbuffer, ?_⟩
    rw [hpc]
    rfl
  · rename_i k hpc
    split at h
    · obtain rfl := Option.some.inj h
      exact hs.still ⟨rfl, rfl⟩ fun h => ⟨h, rfl, by rw [hpc]; rfl⟩
    · obtain rfl := Option.some.inj h
      exact hs.resume hturn (Or.inl hpc) _
  · rename_i k hpc
    obtain rfl := Option.some.inj h
    refine hs.still ⟨hwritten, hhanded⟩ fun h => ⟨hquit.symm.trans h, hbuffer, ?_⟩
    rw [hpc]
    rfl
  · rename_i k hpc
    split at h
    · split at h
      · obtain rfl := Option.some.inj h
        exact hs.still ⟨rfl, rfl⟩ fun h => ⟨h, rfl, by rw [hpc]; rfl⟩
      · obtain rfl := Option.some.inj h
        exact hs.resume hturn (Or.inr (Or.inr hpc)) _
    · cases h
  · cases h

theorem Ordered.take (hs : Ordered s) {outLen : Nat} (hconsumed : s.consumed = 0)
    (hempty : s.consuming = []) : Ordered (s.take outLen) := by
  have hhanded : (s.take outLen).handed = s.handed := handed_take hconsumed hempty
  rcases take_cases outLen hconsumed with
    ⟨-, -, heq⟩ | ⟨chunk, full, producer, hfull, hproducer, heq⟩ | ⟨-, -, heq⟩
  · rw [heq]
    exact hs.still ⟨rfl, rfl⟩ fun h => ⟨h, rfl, rfl⟩
  · rw [heq] at hhanded ⊢
    refine hs.still ⟨rfl, hhanded⟩ fun h => ⟨h, rfl, ?_⟩
    rcases hproducer with ⟨rfl, -⟩ | ⟨chunks, finishing, hwait, rfl⟩
    · rfl
    · rw [hwait]
      rfl
  · rw [heq]
    exact hs.still ⟨rfl, rfl⟩ fun h => ⟨h, rfl, rfl⟩

theorem Ordered.readerStep (hs : Ordered s) (hturn : Turn s) (h : s.readerStep = some t) :
    Ordered t := by
  unfold State.readerStep at h
  split at h
  · rename_i outLen hpc
    obtain rfl := Option.some.inj h
    have hhanded := handed_recycle (hturn.pulling outLen hpc)
    obtain ⟨free, heq⟩ := recycle_eq s
    rw [heq] at hhanded ⊢
    have hrecycle : Ordered { s with free := free, consuming := [], consumed := 0 } :=
      hs.still ⟨rfl, hhanded⟩ fun h => ⟨h, rfl, rfl⟩
    exact hrecycle.take rfl rfl
  · rename_i outLen hpc
    obtain rfl := Option.some.inj h
    obtain ⟨hempty, hconsumed⟩ := hturn.recycled outLen (Or.inr hpc)
    exact hs.take hconsumed hempty
  · obtain rfl := Option.some.inj h
    exact hs.still ⟨rfl, rfl⟩ fun h => by cases h
  · obtain rfl := Option.some.inj h
    rcases notifyFree_cases s with ⟨heq, -⟩ | ⟨chunks, finishing, hpc, heq⟩
    · rw [heq]
      exact hs.still ⟨rfl, rfl⟩ fun h => ⟨h, rfl, rfl⟩
    · rw [heq]
      exact hs.still ⟨rfl, rfl⟩ fun h => ⟨h, rfl, by rw [hpc]; rfl⟩
  · cases h

theorem Ordered.next {e : Event} (hs : Ordered s) (hturn : Turn s) (h : step s e = some t) :
    Ordered t := by
  cases e with
  | write data =>
      simp only [SourceToSink.step] at h
      split at h
      · rename_i hpc
        obtain rfl := Option.some.inj h
        refine ⟨hs.order.trans (List.prefix_append _ _), fun hquit => ?_⟩
        have hconserved := hs.conserved hquit
        rw [hpc] at hconserved
        show s.written ++ data = s.handed ++ (bufferedWrite bufSize s.buffer data).1.flatten ++
          (bufferedWrite bufSize s.buffer data).2
        rw [List.append_assoc, bufferedWrite_flatten, hconserved]
        simp [Producer.inHand]
      · cases h
  | finish =>
      simp only [SourceToSink.step] at h
      split at h
      · rename_i hpc
        obtain rfl := Option.some.inj h
        refine ⟨hs.order, fun hquit => ?_⟩
        have hconserved := hs.conserved hquit
        rw [hpc] at hconserved
        show s.written = s.handed ++ (flush s.buffer).flatten ++ []
        rw [flush_flatten, hconserved]
        simp [Producer.inHand]
      · cases h
  | producer => exact hs.producerStep hturn h
  | producerSpurious =>
      simp only [SourceToSink.step] at h
      split at h
      · rename_i hpc
        obtain rfl := Option.some.inj h
        exact hs.still ⟨rfl, rfl⟩ fun h => ⟨h, rfl, by rw [hpc]; rfl⟩
      · cases h
  | read outLen =>
      simp only [SourceToSink.step] at h
      split at h
      · split at h
        · obtain rfl := Option.some.inj h
          exact hs.still ⟨rfl, rfl⟩ fun h => ⟨h, rfl, rfl⟩
        · obtain rfl := Option.some.inj h
          have hhanded : (s.copy outLen).handed = s.handed := handed_copy hturn.consumed
          rw [copy_eq hturn.consumed] at hhanded ⊢
          exact hs.still ⟨rfl, hhanded⟩ fun h => ⟨h, rfl, rfl⟩
      · cases h
  | reader => exact hs.readerStep hturn h
  | readerSpurious =>
      simp only [SourceToSink.step] at h
      split at h
      · obtain rfl := Option.some.inj h
        exact hs.still ⟨rfl, rfl⟩ fun h => ⟨h, rfl, rfl⟩
      · cases h
  | readerEnd failed =>
      simp only [SourceToSink.step] at h
      split at h
      · obtain rfl := Option.some.inj h
        exact hs.still ⟨rfl, rfl⟩ fun h => ⟨h, rfl, rfl⟩
      · cases h

end Steps

/-! ## The calls of the reader -/

section Count

variable {s t : State × Nat}

theorem resume_reader (s : State) (k : After) : (s.resume k).reader = s.reader := by
  cases k <;> rfl

/-- A step starts the worker, or the worker is there after it if it was before. -/
theorem step_starts {s t : State} {e : Event} (hs : Turn s) (h : step s e = some t) :
    (starts s e = true ∧ t.reader = .ready) ∨
    (starts s e = false ∧ (t.reader = .absent ↔ s.reader = .absent)) := by
  cases e with
  | producer =>
      simp only [step, State.producerStep] at h
      have hnotify := notifyFull_cases s
      have hpush := push_cases s
      split at h <;> grind -linarith [starts, takesChunk, resume_reader]
  | reader =>
      simp only [step, State.readerStep] at h
      obtain ⟨free, heq⟩ := recycle_eq s
      have hrecycle : s.recycle.consumed = 0 := by rw [heq]
      have hreader : s.recycle.reader = s.reader := by rw [heq]
      have htake := fun outLen => take_cases outLen hrecycle
      have htake' := fun outLen h => @take_cases s outLen h
      have hnotify := notifyFree_cases s
      split at h <;> grind -linarith [starts, takesChunk]
  | read outLen =>
      simp only [step] at h
      have hcopy : s.copy outLen = _ := copy_eq hs.consumed
      split at h <;> grind -linarith [starts, takesChunk]
  | _ =>
      simp only [step] at h
      split at h <;> grind -linarith [starts, takesChunk]

/-- What holds of the state and the count along a run that writes only to a reader. -/
structure Once (s : State × Nat) : Prop where
  turn : Turn s.1
  ordered : Ordered s.1
  absent : s.1.reader = .absent → s.2 = 0
  present : s.1.reader ≠ .absent → s.2 = 1

theorem once_initial : Once (initial, 0) := by
  refine ⟨?_, ⟨List.prefix_rfl, fun _ => rfl⟩, fun _ => rfl, fun h => absurd rfl h⟩
  constructor <;> simp [initial]

theorem counted_step {e : Event} : counted.step s e t ↔
    step s.1 e = some t.1 ∧ t.2 = s.2 + if starts s.1 e then 1 else 0 := by
  show countedStep s e = some t ↔ _
  rw [countedStep, Option.map_eq_some_iff]
  constructor
  · rintro ⟨u, hu, rfl⟩
    exact ⟨hu, rfl⟩
  · rintro ⟨hstep, hcount⟩
    exact ⟨t.1, hstep, Prod.ext rfl hcount.symm⟩

theorem Once.next {e : Event} (hs : Once s) (hstep : counted.step s e t)
    (hwrites : WritesToReader s e) : Once t := by
  obtain ⟨hnext, hcount⟩ := counted_step.mp hstep
  refine ⟨hs.turn.next hnext, hs.ordered.next hs.turn hnext, fun habsent => ?_, fun hpresent => ?_⟩
  · rcases step_starts hs.turn hnext with ⟨-, hready⟩ | ⟨hstarts, hiff⟩
    · rw [hready] at habsent
      cases habsent
    · rw [hcount, hstarts, hs.absent (hiff.mp habsent)]
      rfl
  · rcases step_starts hs.turn hnext with ⟨hstarts, -⟩ | ⟨hstarts, hiff⟩
    · -- the worker that starts is the first one
      obtain ⟨htakes, hjoinable⟩ : takesChunk s.1 e = true ∧ s.1.joinable = false := by
        simpa [starts] using hstarts
      have hfirst : s.1.reader = .absent := by
        refine (hs.turn.joined hjoinable).resolve_right fun hexited => ?_
        exact hwrites htakes ⟨hs.turn.quit (Or.inr hexited), hjoinable⟩
      rw [hcount, hstarts, hs.absent hfirst]
      rfl
    · rw [hcount, hstarts, hs.present fun habsent => hpresent (hiff.mpr habsent)]
      rfl

theorem once_of_reachable (h : (counted.restrict WritesToReader).Reachable s) : Once s := by
  refine h.invariant ?_ fun s e t hs hstep => hs.next hstep.1 hstep.2
  rintro _ rfl
  exact once_initial

/-- What the reader has received is what was written first. -/
theorem Ordered.received (hs : Ordered s.1) : s.1.received <+: s.1.written := by
  refine List.IsPrefix.trans ?_ hs.order
  rw [State.handed, List.append_assoc]
  exact List.prefix_append _ _

/-- A chunk taken up after a write has joined the reader starts another one. -/
theorem Once.restarts {e : Event} (hs : Once s) (hstep : counted.step s e t)
    (hwrites : ¬ WritesToReader s e) : t.2 = 2 := by
  obtain ⟨htakes, hquit, hjoinable⟩ : takesChunk s.1 e = true ∧ s.1.quit = true ∧
      s.1.joinable = false := by
    unfold WritesToReader at hwrites
    tauto
  have hpresent : s.1.reader ≠ .absent := by
    intro habsent
    rw [(hs.turn.absent habsent).2] at hquit
    cases hquit
  have hstarts : starts s.1 e = true := by
    rw [starts, htakes, hjoinable]
    rfl
  rw [(counted_step.mp hstep).2, hstarts, hs.present hpresent]
  rfl

/-- In every run that writes only to a reader, the reader is called at most once and
receives a prefix of what is written; and the first chunk for which there is none calls it
again. -/
theorem reader_called_once (h : (counted.restrict WritesToReader).Reachable s) :
    (s.2 ≤ 1 ∧ s.1.received <+: s.1.written) ∧
    ∀ e t, counted.step s e t →
      (t.2 ≤ 1 ∧ t.1.received <+: t.1.written ↔ WritesToReader s e) := by
  have hs := once_of_reachable h
  have hcalls : ∀ {s : State × Nat}, Once s → s.2 ≤ 1 := by
    intro s hs
    by_cases habsent : s.1.reader = .absent
    · rw [hs.absent habsent]
      exact Nat.zero_le 1
    · rw [hs.present habsent]
  refine ⟨⟨hcalls hs, hs.ordered.received⟩, fun e t hstep => ⟨fun ⟨hcount, _⟩ => ?_, fun hwrites => ?_⟩⟩
  · by_contra hwrites
    rw [hs.restarts hstep hwrites] at hcount
    omega
  · have ht := hs.next hstep hwrites
    exact ⟨hcalls ht, ht.ordered.received⟩

end Count

namespace Example

/-- As many bytes as the buffer in front holds. -/
def block : Bytes := 0 :: List.replicate 32767 0

theorem write_block {s : State} (hidle : s.producer = .idle) (hbuffer : s.buffer = []) :
    step s (.write block) = some { s with
      buffer := [], written := s.written ++ block, producer := .writing [block] false } := by
  have hlength : block.length = bufSize := by
    rw [block, List.length_cons, List.length_replicate]
    rfl
  have hlarge : bufSize - ([] : Bytes).length ≤ block.length := by
    rw [hlength]
    exact Nat.sub_le _ _
  have hne : block ≠ [] := List.cons_ne_nil _ _
  have hwrite : bufferedWrite bufSize [] block = ([block], []) := by
    rw [bufferedWrite, if_neg hne, if_pos hlarge]
    rfl
  simp only [step, hidle, hbuffer, hwrite]

/-- Write a block, in a system of counted steps that checks nothing of such an event. -/
theorem reach_write {next : State × Nat → Event → Option (State × Nat)}
    (hnext : ∀ s data, next s (.write data) = countedStep s (.write data)) {s : State} {n : Nat}
    (h : (TransitionSystem.ofStep (· = (initial, 0)) next).Reachable (s, n))
    (hidle : s.producer = .idle) (hbuffer : s.buffer = []) :
    (TransitionSystem.ofStep (· = (initial, 0)) next).Reachable ({ s with
      buffer := [], written := s.written ++ block, producer := .writing [block] false }, n) := by
  refine h.step (l := .write block) ?_
  show next (s, n) (.write block) = _
  rw [hnext, countedStep, write_block hidle hbuffer]
  rfl

/-- The steps that write only to a reader. -/
def guardedStep (s : State × Nat) (e : Event) : Option (State × Nat) :=
  if WritesToReader s e then countedStep s e else none

theorem guardedStep_write (s : State × Nat) (data : Bytes) :
    guardedStep s (.write data) = countedStep s (.write data) := by
  have hwrites : WritesToReader s (.write data) := fun htakes => by cases htakes
  exact if_pos hwrites

/-- The producer writes a block, and the reader returns without reading. -/
def firstBlock : List Event :=
  [.producer, .producer, .producer, .producer, .readerEnd false, .reader, .reader]

/-- The producer finds the reader gone and joins it. -/
def secondBlock : List Event := [.producer, .producer, .producer, .producer, .producer, .producer]

end Example

/-- A reader that returns at once, and two writes. -/
theorem reader_called_once_example : ∃ s : State × Nat,
    (counted.restrict WritesToReader).Reachable s ∧ s.1.quit = true ∧ s.1.joinable = false ∧
      s.2 ≤ 1 ∧ s.1.received <+: s.1.written := by
  have hstart : (TransitionSystem.ofStep (· = (initial, 0)) Example.guardedStep).Reachable
      (initial, 0) := .of_init rfl
  have hfirst := Example.reach_write Example.guardedStep_write hstart rfl rfl
  have hleft := hfirst.of_steps Example.firstBlock rfl
  have hsecond := Example.reach_write Example.guardedStep_write hleft rfl rfl
  have hjoined := (hsecond.of_steps Example.secondBlock rfl).of_guarded
  exact ⟨_, hjoined, rfl, rfl, (reader_called_once hjoined).1⟩

/-- A reader that returns at once is called again by the third write. -/
theorem reader_called_twice : ∃ s : State × Nat, counted.Reachable s ∧ s.2 = 2 := by
  have hstart : counted.Reachable (initial, 0) := .of_init rfl
  have hfirst := Example.reach_write (fun _ _ => rfl) hstart rfl rfl
  have hleft := hfirst.of_steps Example.firstBlock rfl
  have hsecond := Example.reach_write (fun _ _ => rfl) hleft rfl rfl
  have hjoined := hsecond.of_steps Example.secondBlock rfl
  have hthird := Example.reach_write (fun _ _ => rfl) hjoined rfl rfl
  exact ⟨_, hthird.of_steps [.producer] rfl, rfl⟩

end SourceToSink
end Util
end Archinix
