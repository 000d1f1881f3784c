import Archinix.Store.AsyncHashSink

/-!
# Runs of AsyncHashSink

Which buffer is where, what has been hashed of what was written, and who has to be woken;
and from these `finish_hashes_writes`.
-/

namespace Archinix
namespace Store
namespace AsyncHashSink

open Foundation Util
open SourceToSink (bufferedWrite flush bufSize bufferedWrite_flatten flush_flatten)

variable {maxQueued : Nat} {s t : State} {data : List Bytes} {call : Call} {chunk : Nat}

namespace Worker

/-- The buffer the worker has. -/
def held : Worker → List Nat
  | .notifyPop chunk => [chunk]
  | .hashing chunk => [chunk]
  | .recycling chunk => [chunk]
  | _ => []

/-- The buffer it has still to hash. -/
def unhashed : Worker → List Nat
  | .notifyPop chunk => [chunk]
  | .hashing chunk => [chunk]
  | _ => []

@[simp] theorem held_wake (worker : Worker) : worker.wake.held = worker.held := by
  cases worker <;> rfl

@[simp] theorem unhashed_wake (worker : Worker) : worker.wake.unhashed = worker.unhashed := by
  cases worker <;> rfl

theorem wake_absent (worker : Worker) : worker.wake = .absent ↔ worker = .absent := by
  cases worker <;> simp [Worker.wake]

theorem held_of_unhashed {worker : Worker} (h : chunk ∈ worker.unhashed) : chunk ∈ worker.held := by
  cases worker <;> first | exact h | cases h

end Worker

/-! ## Which buffer is where -/

/-- The buffers in use. -/
def State.owned (s : State) : List Nat := s.producing :: (s.free ++ s.worker.held ++ s.chunks)

/-- Every buffer is in one place, and what was pushed is hashed or dropped, in this order,
or still in the queue as it was. -/
structure Buffers (s : State) : Prop where
  distinct : s.owned.Nodup
  exist : ∀ b ∈ s.owned, b < s.heap.length
  queued : s.pushed = s.hashed ++ s.dropped ++
    (s.worker.unhashed ++ s.chunks).map fun b => (b, s.content b)

theorem map_content_of {bs : List Nat} (h : ∀ b ∈ bs, t.heap[b]? = s.heap[b]?) :
    (bs.map fun b => (b, t.content b)) = bs.map fun b => (b, s.content b) := by
  refine List.map_congr_left fun b hb => ?_
  rw [State.content, State.content, List.getD_eq_getElem?_getD, h b hb,
    List.getD_eq_getElem?_getD]

namespace Buffers

/-- The buffers change hands. -/
theorem of_perm (hs : Buffers s) (hperm : t.owned.Perm s.owned)
    (hheap : t.heap.length = s.heap.length) (hqueued : t.pushed = t.hashed ++ t.dropped ++
      (t.worker.unhashed ++ t.chunks).map fun b => (b, t.content b)) : Buffers t := by
  refine { distinct := hperm.nodup_iff.mpr hs.distinct, exist := ?_, queued := hqueued }
  intro b hb
  rw [hheap]
  exact hs.exist b (hperm.mem_iff.mp hb)

theorem producing_notMem (hs : Buffers s) : s.producing ∉ s.worker.unhashed ++ s.chunks := by
  have hnotmem := (List.nodup_cons.mp hs.distinct).1
  intro hmem
  rcases List.mem_append.mp hmem with hunhashed | hchunks
  · exact hnotmem (by simp [Worker.held_of_unhashed hunhashed])
  · exact hnotmem (by simp [hchunks])

theorem free_notMem {b : Nat} (hs : Buffers s) (hb : b ∈ s.free) :
    b ∉ s.worker.unhashed ++ s.chunks := by
  have hnodup := (List.nodup_cons.mp hs.distinct).2
  rw [List.append_assoc] at hnodup
  intro hmem
  refine List.disjoint_of_nodup_append hnodup hb ?_
  rcases List.mem_append.mp hmem with hunhashed | hchunks
  · exact List.mem_append_left _ (Worker.held_of_unhashed hunhashed)
  · exact List.mem_append_right _ hchunks

/-- A buffer that the producer fills, or will fill, holds nothing that is still to be hashed:
all that was ever pushed in it has been hashed or dropped. -/
theorem recycled {b : Nat} (hs : Buffers s) (hb : b = s.producing ∨ b ∈ s.free) :
    s.pushed.filter (·.1 = b) = (s.hashed ++ s.dropped).filter (·.1 = b) := by
  have hnotmem : b ∉ s.worker.unhashed ++ s.chunks := by
    rcases hb with rfl | hfree
    · exact hs.producing_notMem
    · exact hs.free_notMem hfree
  have hrest : ((s.worker.unhashed ++ s.chunks).map fun b => (b, s.content b)).filter (·.1 = b) = [] := by
    refine List.filter_eq_nil_iff.mpr fun pair hpair => ?_
    obtain ⟨b', hb', rfl⟩ := List.mem_map.mp hpair
    have hne : b' ≠ b := fun heq => hnotmem (heq ▸ hb')
    simp [hne]
  rw [hs.queued, List.filter_append, hrest, List.append_nil]

/-- The producer fills a buffer that nobody else has. -/
theorem assign (hs : Buffers s) (value : Bytes) : Buffers (s.assign value) := by
  refine hs.of_perm (.refl _) List.length_set (hs.queued.trans ?_)
  refine congrArg _ (map_content_of fun b hb => ?_).symm
  have hne : s.producing ≠ b := fun heq => hs.producing_notMem (heq ▸ hb)
  exact List.getElem?_set_ne hne

/-- The worker empties the buffer it is through with. -/
theorem recycle (hs : Buffers s) (hat : s.worker = .recycling chunk) :
    Buffers { s.recycle chunk with worker := .locking } := by
  have hqueued := hs.queued
  have hdistinct := (List.nodup_cons.mp hs.distinct).2
  rw [hat] at hqueued hdistinct
  have hmine : chunk ∉ s.chunks := by
    intro hchunks
    exact List.disjoint_of_nodup_append hdistinct (by simp [Worker.held]) hchunks
  refine hs.of_perm ?_ List.length_set (hqueued.trans ?_)
  · show (s.producing :: (chunk :: s.free ++ [] ++ s.chunks)).Perm s.owned
    rw [State.owned, hat]
    refine .cons _ (.append_right _ ?_)
    rw [List.append_nil]
    exact (List.perm_append_singleton chunk s.free).symm
  · refine congrArg _ (map_content_of fun b hb => ?_).symm
    have hne : chunk ≠ b := fun heq => hmine (heq ▸ hb)
    exact List.getElem?_set_ne hne

/-- The producer's buffer joins the queue, and the producer goes on with another one. -/
theorem renew (hs : Buffers s) : Buffers { s with
    chunks := s.chunks ++ [s.producing]
    pushed := s.pushed ++ [(s.producing, s.content s.producing)] }.renew := by
  have hqueued : s.pushed ++ [(s.producing, s.content s.producing)] = s.hashed ++ s.dropped ++
      (s.worker.unhashed ++ (s.chunks ++ [s.producing])).map fun b => (b, s.content b) := by
    rw [← List.append_assoc s.worker.unhashed, List.map_append, ← List.append_assoc, ← hs.queued]
    rfl
  have hrotate : ∀ free : List Nat, (free ++ s.worker.held ++ (s.chunks ++ [s.producing])).Perm
      (s.producing :: (free ++ s.worker.held ++ s.chunks)) := by
    intro free
    rw [← List.append_assoc]
    exact List.perm_append_singleton _ _
  unfold State.renew
  cases hfree : s.free with
  | cons spent free =>
      refine hs.of_perm ?_ rfl hqueued
      show (spent :: (free ++ s.worker.held ++ (s.chunks ++ [s.producing]))).Perm s.owned
      rw [State.owned, hfree]
      exact ((hrotate free).cons spent).trans (.swap _ _ _)
  | nil =>
      have hperm : (s.free ++ s.worker.held ++ (s.chunks ++ [s.producing])).Perm s.owned :=
        hrotate s.free
      rw [hfree] at hperm
      have hlt : ∀ b ∈ [] ++ s.worker.held ++ (s.chunks ++ [s.producing]), b < s.heap.length :=
        fun b hb => hs.exist b (hperm.mem_iff.mp hb)
      refine { distinct := ?_, exist := ?_, queued := hqueued.trans ?_ }
      · refine List.nodup_cons.mpr ⟨fun hmem => ?_, hperm.nodup_iff.mpr hs.distinct⟩
        exact Nat.lt_irrefl _ (hlt _ hmem)
      · show ∀ b ∈ s.heap.length :: ([] ++ s.worker.held ++ (s.chunks ++ [s.producing])),
          b < (s.heap ++ [[]]).length
        intro b hb
        rw [List.length_append, List.length_singleton]
        rcases List.mem_cons.mp hb with rfl | hb
        · omega
        · have hold := hlt b hb
          omega
      · refine congrArg _ (map_content_of fun b hb => ?_).symm
        refine List.getElem?_append_left (hlt b ?_)
        rcases List.mem_append.mp hb with hunhashed | hchunks
        · exact List.mem_append_left _ (List.mem_append_right _ (Worker.held_of_unhashed hunhashed))
        · exact List.mem_append_right _ hchunks

theorem push (hs : Buffers s) : Buffers (s.push maxQueued data call) := by
  unfold State.push
  split
  · dsimp only
    obtain ⟨hdistinct, hexist, hqueued⟩ := hs.renew
    split
    · exact ⟨hdistinct, hexist, hqueued⟩
    · exact ⟨hdistinct, hexist, hqueued⟩
  · exact ⟨hs.distinct, hs.exist, hs.queued⟩

/-- The worker, which has no buffer, takes one. -/
theorem pop (hs : Buffers s) (hat : s.worker = .locking) : Buffers (s.pop maxQueued) := by
  obtain ⟨hdistinct, hexist, hqueued⟩ := hs
  simp only [State.owned] at hdistinct hexist
  rw [hat] at hdistinct hexist hqueued
  unfold State.pop
  split
  · rename_i hchunks
    split
    · exact ⟨hdistinct, hexist, hqueued⟩
    · exact ⟨hdistinct, hexist, hqueued⟩
  · rename_i chunk chunks hchunks
    rw [hchunks] at hdistinct hexist hqueued
    dsimp only
    split
    all_goals
      refine ⟨?_, ?_, hqueued⟩
      · simpa [State.owned, Worker.held] using hdistinct
      · simpa [State.owned, Worker.held] using hexist

/-- A step that leaves the buffers where they are. -/
theorem same (hs : Buffers s) (hproducing : t.producing = s.producing) (hfree : t.free = s.free)
    (hheld : t.worker.held = s.worker.held) (hunhashed : t.worker.unhashed = s.worker.unhashed)
    (hchunks : t.chunks = s.chunks) (hheap : t.heap = s.heap) (hpushed : t.pushed = s.pushed)
    (hhashed : t.hashed = s.hashed) (hdropped : t.dropped = s.dropped) : Buffers t := by
  have howned : t.owned = s.owned := by
    rw [State.owned, hproducing, hfree, hheld, hchunks, State.owned]
  refine hs.of_perm (.of_eq howned) (congrArg _ hheap) ?_
  rw [hpushed, hhashed, hdropped, hunhashed, hchunks, hs.queued]
  exact congrArg _ (map_content_of fun b _ => by rw [hheap]).symm

/-- Without a thread nothing is queued. -/
theorem hashInline (hs : Buffers s) (hworker : s.worker = .absent) (hchunks : s.chunks = [])
    (hdropped : s.dropped = []) (value : Bytes) : Buffers (s.hashInline value) := by
  have hqueued := hs.queued
  rw [hworker, hchunks, hdropped] at hqueued
  refine hs.of_perm (.refl _) rfl ?_
  show s.pushed ++ [(s.producing, value)] = s.hashed ++ [(s.producing, value)] ++ s.dropped ++
    (s.worker.unhashed ++ s.chunks).map fun b => (b, s.content b)
  rw [hworker, hchunks, hdropped, hqueued]
  show s.hashed ++ [] ++ [] ++ _ = s.hashed ++ _ ++ [] ++ []
  simp only [List.append_nil]

/-- The worker is through with its buffer. -/
theorem process (hs : Buffers s) (hat : s.worker = .hashing chunk) (hworker : t.worker = .recycling chunk)
    (hproducing : t.producing = s.producing) (hfree : t.free = s.free) (hchunks : t.chunks = s.chunks)
    (hheap : t.heap = s.heap) (hpushed : t.pushed = s.pushed)
    (hprocessed : t.hashed ++ t.dropped = s.hashed ++ s.dropped ++ [(chunk, s.content chunk)]) :
    Buffers t := by
  have howned : t.owned = s.owned := by
    rw [State.owned, hproducing, hfree, hworker, hchunks, State.owned, hat]
    rfl
  have hqueued := hs.queued
  rw [hat] at hqueued
  refine hs.of_perm (.of_eq howned) (congrArg _ hheap) ?_
  rw [hpushed, hprocessed, hworker, hchunks, hqueued, List.append_assoc _ [_]]
  refine congrArg _ (congrArg (_ :: ·) ?_)
  exact (map_content_of fun b _ => by rw [hheap]).symm

end Buffers

/-! ## What has been hashed -/

namespace Producer

/-- What the call has still to write unbuffered. -/
def rest : Producer → List Bytes
  | .writing data _ => data
  | .pushing data _ => data
  | .waiting data _ => data
  | .notifyPush data _ => data
  | _ => []

/-- `producing` is assigned and not yet pushed. -/
def isAssigned : Producer → Bool
  | .pushing _ _ => true
  | .waiting _ _ => true
  | _ => false

end Producer

namespace State

/-- What has been written and not yet pushed. -/
def pending (s : State) : Bytes :=
  (if s.producer.isAssigned then s.content s.producing else []) ++ s.producer.rest.flatten ++ s.buffer

/-- The inline hasher has not thrown. -/
def Unraised (s : State) : Prop := s.threaded = false → s.raised = false

end State

/-- What the producer may rely on where it is. -/
def Place [Sha256] (s : State) : Producer → Prop
  | .idle => s.closed = false ∧ s.Unraised
  | .writing data call =>
      (s.closed = true → data = [] ∧ call = .destroy) ∧ (call ≠ .write → s.buffer = []) ∧
        (call ≠ .destroy → s.Unraised)
  | .pushing _ call => s.closed = false ∧ s.threaded = true ∧ (call ≠ .write → s.buffer = [])
  | .waiting _ call => s.closed = false ∧ s.threaded = true ∧ (call ≠ .write → s.buffer = [])
  | .notifyPush _ call => s.closed = false ∧ s.threaded = true ∧ (call ≠ .write → s.buffer = [])
  | .closing call => call ≠ .write ∧ s.buffer = [] ∧ (call ≠ .destroy → s.Unraised)
  | .notifyClosed call =>
      s.closed = true ∧ call ≠ .write ∧ s.buffer = [] ∧ (call ≠ .destroy → s.Unraised)
  | .joining call =>
      s.closed = true ∧ call ≠ .write ∧ s.buffer = [] ∧ (call ≠ .destroy → s.Unraised)
  | .returned result => s.buffer = [] ∧ result = hashSink s.written
  | .threw => s.raised = true ∧ (s.closed = true → s.buffer = [])
  | .destroyed => True

/-- What the hasher has been given, and what is left of what was written. -/
structure Hashed [Sha256] (s : State) : Prop where
  inline : s.threaded = false →
    s.worker = .absent ∧ s.chunks = [] ∧ s.dropped = [] ∧ s.failure = false
  present : s.threaded = true → s.worker ≠ .absent ∧ s.raised = s.failure
  inner : s.raised = false → s.inner.given = (s.hashed.map Prod.snd).flatten ∧ s.dropped = []
  order : s.threaded = true ∨ s.raised = false →
    s.written = (s.pushed.map Prod.snd).flatten ++ s.pending
  place : Place s s.producer

/-! ## Who waits, and who is to wake them -/

/-- The producer waits only while the queue is full or the worker is about to notify it;
the worker waits beside a buffer, or after `closed`, only while the producer is about to
notify it. -/
structure Watched (maxQueued : Nat) (s : State) : Prop where
  bounded : s.chunks.length ≤ maxQueued
  room : ∀ data call, s.producer = .waiting data call →
    s.chunks.length = maxQueued ∨ ∃ chunk, s.worker = .notifyPop chunk
  heard : s.worker = .waiting → s.chunks ≠ [] → ∃ data call, s.producer = .notifyPush data call
  told : s.worker = .waiting → s.closed = true → ∃ call, s.producer = .notifyClosed call
  exited : s.worker = .exited → s.closed = true ∧ s.chunks = []

theorem pending_eq (s : State) {pc : Producer} (hat : s.producer = pc) (hpc : pc.isAssigned = false) :
    s.pending = pc.rest.flatten ++ s.buffer := by
  rw [State.pending, hat, hpc]
  rfl

/-- What the worker does with the lock does not depend on where it comes from. -/
theorem pop_worker (s : State) (worker : Worker) :
    ({ s with worker := worker } : State).pop maxQueued = s.pop maxQueued := by
  unfold State.pop
  rfl

section Frame

theorem renew_eq (s : State) : ∃ producing free heap,
    s.renew = { s with producing := producing, free := free, heap := heap } := by
  unfold State.renew
  split
  · exact ⟨_, _, s.heap, rfl⟩
  · exact ⟨_, s.free, _, rfl⟩

/-- `writeUnbuffered`, with the lock. -/
theorem Watched.push (hs : Watched maxQueued s) (hat : s.producer = .pushing data call)
    (hopen : s.closed = false) : Watched maxQueued (s.push maxQueued data call) := by
  have hasleep : s.worker = .waiting → s.chunks = [] := by
    intro hwait
    by_contra hchunks
    obtain ⟨data', call', hnotify⟩ := hs.heard hwait hchunks
    rw [hat] at hnotify
    cases hnotify
  obtain ⟨hbounded, hroom, hheard, htold, hexited⟩ := hs
  unfold State.push
  split
  · rename_i hlt
    obtain ⟨producing, free, heap, hrenew⟩ := renew_eq { s with
      chunks := s.chunks ++ [s.producing]
      pushed := s.pushed ++ [(s.producing, s.content s.producing)] }
    dsimp only
    rw [hrenew]
    split
    · constructor <;> grind
    · -- no notification: there were buffers already, and the worker is awake
      constructor <;> grind
  · constructor <;> grind

/-- The worker's wait, with the lock. -/
theorem Watched.pop (hs : Watched maxQueued s) (hworker : s.worker = .locking) :
    Watched maxQueued (s.pop maxQueued) := by
  obtain ⟨hbounded, hroom, hheard, htold, hexited⟩ := hs
  unfold State.pop
  split
  · rename_i hchunks
    split
    · constructor <;> grind
    · constructor <;> grind
  · rename_i chunk chunks hchunks
    have hlength : s.chunks.length = chunks.length + 1 := by rw [hchunks]; rfl
    dsimp only
    split
    · constructor <;> grind
    · constructor <;> grind

/-- The worker goes on by itself. -/
theorem Watched.work (hs : Watched maxQueued s) (hnotify : ∀ chunk, s.worker ≠ .notifyPop chunk)
    (hwait : t.worker ≠ .waiting) (hexit : t.worker ≠ .exited) (hchunks : t.chunks = s.chunks)
    (hproducer : t.producer = s.producer) : Watched maxQueued t := by
  obtain ⟨hbounded, hroom, hheard, htold, hexited⟩ := hs
  constructor <;> grind

/-- The producer goes on by itself. -/
theorem Watched.produce (hs : Watched maxQueued s)
    (hnotify : ∀ data call, s.producer ≠ .notifyPush data call)
    (hclosing : ∀ call, s.producer ≠ .notifyClosed call)
    (hwait : ∀ data call, t.producer ≠ .waiting data call) (hworker : t.worker = s.worker)
    (hchunks : t.chunks = s.chunks) (hclosed : t.closed = s.closed) : Watched maxQueued t := by
  obtain ⟨hbounded, hroom, hheard, htold, hexited⟩ := hs
  constructor <;> grind

/-- The producer notifies the worker. -/
theorem Watched.notify (hs : Watched maxQueued s)
    (hwait : ∀ data call, t.producer ≠ .waiting data call) (hworker : t.worker = s.worker.wake)
    (hchunks : t.chunks = s.chunks) (hclosed : t.closed = s.closed) : Watched maxQueued t := by
  have hawake : t.worker ≠ .waiting := by
    rw [hworker]
    cases s.worker <;> simp [Worker.wake]
  have hexit : t.worker = .exited → s.worker = .exited := by
    rw [hworker]
    cases s.worker <;> simp [Worker.wake]
  obtain ⟨hbounded, hroom, hheard, htold, hexited⟩ := hs
  constructor <;> grind

end Frame

section Steps

variable [Sha256] {e : Event}

theorem Hashed.dropped_eq_nil (hs : Hashed s) (hfailure : s.failure = false) : s.dropped = [] := by
  cases hthreaded : s.threaded with
  | false => exact (hs.inline hthreaded).2.2.1
  | true => exact (hs.inner ((hs.present hthreaded).2.trans hfailure)).2

theorem Buffers.leave (hs : Buffers s) (call : Call) : Buffers (s.leave call) := by
  unfold State.leave
  split
  · exact hs.same rfl rfl rfl rfl rfl rfl rfl rfl rfl
  · split
    · exact hs.same rfl rfl rfl rfl rfl rfl rfl rfl rfl
    · exact hs.same rfl rfl rfl rfl rfl rfl rfl rfl rfl
  · exact hs.same rfl rfl rfl rfl rfl rfl rfl rfl rfl

theorem Buffers.step (hs : Buffers s) (hhashed : Hashed s) (h : step maxQueued s e = some t) :
    Buffers t := by
  cases e with
  | produce =>
      simp only [AsyncHashSink.step] at h
      split at h
      · obtain rfl := Option.some.inj h
        exact hs.same rfl rfl rfl rfl rfl rfl rfl rfl rfl
      · obtain rfl := Option.some.inj h
        exact hs.same rfl rfl rfl rfl rfl rfl rfl rfl rfl
      · rename_i chunk data call hat
        split at h
        · obtain rfl := Option.some.inj h
          exact (hs.assign chunk).same rfl rfl rfl rfl rfl rfl rfl rfl rfl
        · rename_i hinline
          obtain rfl := Option.some.inj h
          obtain ⟨hworker, hchunks, hdropped, -⟩ := hhashed.inline (by simpa using hinline)
          exact (hs.hashInline hworker hchunks hdropped chunk).same rfl rfl rfl rfl rfl rfl rfl rfl rfl
      · cases h
  | push =>
      simp only [AsyncHashSink.step] at h
      split at h
      · obtain rfl := Option.some.inj h
        exact hs.push
      · cases h
  | pop =>
      simp only [AsyncHashSink.step] at h
      split at h
      · rename_i hat
        obtain rfl := Option.some.inj h
        exact hs.pop hat
      · rename_i chunk hat
        obtain rfl := Option.some.inj h
        rw [← pop_worker _ .locking]
        exact (hs.recycle hat).pop rfl
      · cases h
  | notifyPop =>
      simp only [AsyncHashSink.step] at h
      split at h
      · rename_i chunk hat
        obtain rfl := Option.some.inj h
        exact hs.same rfl rfl (by rw [hat]; rfl) (by rw [hat]; rfl) rfl rfl rfl rfl rfl
      · cases h
  | hash =>
      simp only [AsyncHashSink.step] at h
      split at h
      · rename_i chunk hat
        split at h
        · obtain rfl := Option.some.inj h
          exact hs.process hat rfl rfl rfl rfl rfl rfl (List.append_assoc _ _ _).symm
        · rename_i hfailure
          obtain rfl := Option.some.inj h
          have hdropped := hhashed.dropped_eq_nil (by simpa using hfailure)
          refine hs.process hat rfl rfl rfl rfl rfl rfl ?_
          rw [hdropped, List.append_nil, List.append_nil]
      · cases h
  | hashThrow left =>
      simp only [AsyncHashSink.step] at h
      split at h
      · rename_i chunk hat
        split at h
        · cases h
        · obtain rfl := Option.some.inj h
          exact hs.process hat rfl rfl rfl rfl rfl rfl (List.append_assoc _ _ _).symm
      · cases h
  | notifyPush =>
      simp only [AsyncHashSink.step] at h
      split at h
      · obtain rfl := Option.some.inj h
        exact hs.same rfl rfl (by simp) (by simp) rfl rfl rfl rfl rfl
      · cases h
  | notifyClosed =>
      simp only [AsyncHashSink.step] at h
      split at h
      · obtain rfl := Option.some.inj h
        exact hs.same rfl rfl (by simp) (by simp) rfl rfl rfl rfl rfl
      · cases h
  | join =>
      simp only [AsyncHashSink.step] at h
      split at h
      · obtain rfl := Option.some.inj h
        exact hs.leave _
      · obtain rfl := Option.some.inj h
        exact hs.leave _
      · cases h
  | spuriousPush =>
      simp only [AsyncHashSink.step] at h
      split at h
      · rename_i hat
        obtain rfl := Option.some.inj h
        exact hs.same rfl rfl (by rw [hat]; rfl) (by rw [hat]; rfl) rfl rfl rfl rfl rfl
      · cases h
  | produceThrow left =>
      simp only [AsyncHashSink.step] at h
      split at h
      · split at h
        · cases h
        · split at h
          · obtain rfl := Option.some.inj h
            exact hs.same rfl rfl rfl rfl rfl rfl rfl rfl rfl
          · obtain rfl := Option.some.inj h
            exact hs.same rfl rfl rfl rfl rfl rfl rfl rfl rfl
      · cases h
  | write | finish | destroy | close | spuriousPop =>
      -- only the producer moves
      simp only [AsyncHashSink.step] at h
      split at h
      all_goals
        cases h
        try exact hs.same rfl rfl rfl rfl rfl rfl rfl rfl rfl

theorem Watched.leave (hs : Watched maxQueued s) (hat : s.producer = .joining call) (call' : Call) :
    Watched maxQueued (s.leave call') := by
  unfold State.leave
  split
  · apply hs.produce <;> simp [hat]
  · split
    · apply hs.produce <;> simp [hat]
    · apply hs.produce <;> simp [hat]
  · apply hs.produce <;> simp [hat]

theorem Watched.step (hs : Watched maxQueued s) (hhashed : Hashed s)
    (h : step maxQueued s e = some t) : Watched maxQueued t := by
  have hplace := hhashed.place
  cases e with
  | write data =>
      simp only [AsyncHashSink.step] at h
      split at h
      · rename_i hat
        obtain rfl := Option.some.inj h
        apply hs.produce <;> simp [hat]
      · cases h
  | finish =>
      simp only [AsyncHashSink.step] at h
      split at h
      · rename_i hat
        obtain rfl := Option.some.inj h
        apply hs.produce <;> simp [hat]
      · cases h
  | destroy =>
      simp only [AsyncHashSink.step] at h
      split at h
      · rename_i hat
        obtain rfl := Option.some.inj h
        apply hs.produce <;> simp [hat]
      · rename_i hat
        obtain rfl := Option.some.inj h
        apply hs.produce <;> simp [hat]
      · rename_i hat
        obtain rfl := Option.some.inj h
        apply hs.produce <;> simp [hat]
      · cases h
  | produce =>
      simp only [AsyncHashSink.step] at h
      split at h
      · rename_i hat
        obtain rfl := Option.some.inj h
        apply hs.produce <;> simp [hat, State.leave]
      · rename_i hat
        obtain rfl := Option.some.inj h
        apply hs.produce <;> simp [hat]
      · rename_i chunk data call hat
        split at h
        · obtain rfl := Option.some.inj h
          apply hs.produce <;> simp [hat, State.assign]
        · obtain rfl := Option.some.inj h
          apply hs.produce <;> simp [hat, State.hashInline]
      · cases h
  | produceThrow left =>
      simp only [AsyncHashSink.step] at h
      split at h
      · rename_i hat
        split at h
        · cases h
        · split at h
          · obtain rfl := Option.some.inj h
            apply hs.produce <;> simp [hat]
          · obtain rfl := Option.some.inj h
            apply hs.produce <;> simp [hat]
      · cases h
  | push =>
      simp only [AsyncHashSink.step] at h
      split at h
      · rename_i data call hat
        obtain rfl := Option.some.inj h
        rw [hat] at hplace
        exact hs.push hat hplace.1
      · cases h
  | notifyPush =>
      simp only [AsyncHashSink.step] at h
      split at h
      · obtain rfl := Option.some.inj h
        apply hs.notify <;> simp
      · cases h
  | close =>
      simp only [AsyncHashSink.step] at h
      split at h
      · rename_i call hat
        obtain rfl := Option.some.inj h
        obtain ⟨hbounded, hroom, hheard, htold, hexited⟩ := hs
        constructor <;> grind
      · cases h
  | notifyClosed =>
      simp only [AsyncHashSink.step] at h
      split at h
      · obtain rfl := Option.some.inj h
        apply hs.notify <;> simp
      · cases h
  | join =>
      simp only [AsyncHashSink.step] at h
      split at h
      · rename_i call hat _
        obtain rfl := Option.some.inj h
        exact hs.leave hat call
      · rename_i call hat _
        obtain rfl := Option.some.inj h
        exact hs.leave hat call
      · cases h
  | pop =>
      simp only [AsyncHashSink.step] at h
      split at h
      · rename_i hat
        obtain rfl := Option.some.inj h
        exact hs.pop hat
      · rename_i chunk hat
        obtain rfl := Option.some.inj h
        rw [← pop_worker _ .locking]
        refine Watched.pop ?_ rfl
        apply hs.work <;> simp [hat, State.recycle]
      · cases h
  | notifyPop =>
      simp only [AsyncHashSink.step] at h
      split at h
      · rename_i chunk hat
        obtain rfl := Option.some.inj h
        have hawake : ∀ data call, s.producer.wake ≠ .waiting data call := by
          intro data call
          cases s.producer <;> simp [Producer.wake]
        refine { bounded := hs.bounded, room := fun data call hwait => absurd hwait (hawake data call),
                 heard := ?_, told := ?_, exited := ?_ } <;> simp
      · cases h
  | hash =>
      simp only [AsyncHashSink.step] at h
      split at h
      · rename_i chunk hat
        split at h
        · obtain rfl := Option.some.inj h
          apply hs.work <;> simp [hat]
        · obtain rfl := Option.some.inj h
          apply hs.work <;> simp [hat]
      · cases h
  | hashThrow left =>
      simp only [AsyncHashSink.step] at h
      split at h
      · rename_i chunk hat
        split at h
        · cases h
        · obtain rfl := Option.some.inj h
          apply hs.work <;> simp [hat]
      · cases h
  | spuriousPush =>
      simp only [AsyncHashSink.step] at h
      split at h
      · rename_i hat
        obtain rfl := Option.some.inj h
        apply hs.work <;> simp [hat]
      · cases h
  | spuriousPop =>
      simp only [AsyncHashSink.step] at h
      split at h
      · rename_i data call hat
        obtain rfl := Option.some.inj h
        apply hs.produce <;> simp [hat]
      · cases h

theorem Place.frame {pc : Producer} (h : Place s pc) (hclosed : t.closed = s.closed)
    (hbuffer : t.buffer = s.buffer) (hwritten : t.written = s.written)
    (hthreaded : t.threaded = s.threaded) (hraised : s.raised = true → t.raised = true)
    (hunraised : s.Unraised → t.Unraised) : Place t pc := by
  cases pc <;> simp only [Place] at h ⊢ <;> grind

theorem Hashed.started (hs : Hashed s) (hat : s.worker ≠ .absent) :
    s.threaded = true ∧ s.raised = s.failure := by
  have hthreaded : s.threaded = true := by
    by_contra hinline
    exact hat (hs.inline (by simpa using hinline)).1
  exact ⟨hthreaded, (hs.present hthreaded).2⟩

/-- The worker goes on. -/
theorem Hashed.work (hs : Hashed s) (hat : s.worker ≠ .absent) (hworker : t.worker ≠ .absent)
    (hthreaded : t.threaded = s.threaded) (hclosed : t.closed = s.closed)
    (hbuffer : t.buffer = s.buffer) (hwritten : t.written = s.written)
    (hpushed : t.pushed = s.pushed) (hpending : t.pending = s.pending)
    (hplace : Place s s.producer → Place s t.producer) (hfailure : t.raised = t.failure)
    (hraised : s.raised = true → t.raised = true)
    (hinner : t.raised = false → t.inner.given = (t.hashed.map Prod.snd).flatten ∧ t.dropped = []) :
    Hashed t := by
  have hpresent := (hs.started hat).1
  refine { inline := ?_, present := fun _ => ⟨hworker, hfailure⟩, inner := hinner, order := ?_,
           place := ?_ }
  · intro hinline
    rw [hthreaded, hpresent] at hinline
    cases hinline
  · intro _
    rw [hwritten, hpushed, hpending]
    exact hs.order (Or.inl hpresent)
  · refine (hplace hs.place).frame hclosed hbuffer hwritten hthreaded hraised fun _ hinline => ?_
    rw [hthreaded, hpresent] at hinline
    cases hinline

/-- The producer goes on, and pushes nothing. -/
theorem Hashed.produce (hs : Hashed s) (hthreaded : t.threaded = s.threaded)
    (hworker : t.worker = .absent ↔ s.worker = .absent) (hchunks : t.chunks = s.chunks)
    (hdropped : t.dropped = s.dropped) (hfailure : t.failure = s.failure)
    (hraised : t.raised = s.raised) (hinner : t.inner = s.inner) (hhashed : t.hashed = s.hashed)
    (hpending : s.written = (s.pushed.map Prod.snd).flatten ++ s.pending →
      t.written = (t.pushed.map Prod.snd).flatten ++ t.pending)
    (hplace : Place t t.producer) : Hashed t := by
  refine { inline := ?_, present := ?_, inner := ?_, order := ?_, place := hplace }
  · rw [hthreaded, hworker, hchunks, hdropped, hfailure]
    exact hs.inline
  · rw [hthreaded, ne_eq, hworker, hraised, hfailure]
    exact hs.present
  · rw [hraised, hinner, hhashed, hdropped]
    exact hs.inner
  · rw [hthreaded, hraised]
    exact fun hsound => hpending (hs.order hsound)

/-- `finish()` or the destructor flushes the buffer. -/
theorem Hashed.flush (hs : Hashed s) (hat : s.producer.isAssigned = false)
    (hrest : s.producer.rest = []) (call : Call)
    (hplace : Place { s with buffer := [], producer := .writing (flush s.buffer) call }
      (.writing (flush s.buffer) call)) :
    Hashed { s with buffer := [], producer := .writing (flush s.buffer) call } := by
  refine hs.produce rfl .rfl rfl rfl rfl rfl rfl rfl (fun horder => ?_) hplace
  rw [horder, pending_eq s rfl hat, hrest]
  show _ ++ ([] ++ s.buffer) = _ ++ ([] ++ (SourceToSink.flush s.buffer).flatten ++ [])
  rw [flush_flatten, List.append_nil]

theorem Hashed.assign (hs : Hashed s) (hbuffers : Buffers s) {value : Bytes}
    (hat : s.producer = .writing (value :: data) call) (hthreaded : s.threaded = true) :
    Hashed { s.assign value with producer := .pushing data call } := by
  have hplace := hs.place
  rw [hat] at hplace
  obtain ⟨hclosed, hbuffer, -⟩ := hplace
  have hopen : s.closed = false := by
    by_contra hne
    have hnil := (hclosed (by simpa using hne)).1
    cases hnil
  have hlt : s.producing < s.heap.length := hbuffers.exist _ List.mem_cons_self
  have hcontent : (s.assign value).content s.producing = value := by
    simp [State.content, State.assign, List.getD_eq_getElem?_getD, hlt]
  refine hs.produce rfl .rfl rfl rfl rfl rfl rfl rfl (fun horder => ?_) ⟨hopen, hthreaded, hbuffer⟩
  refine horder.trans ?_
  rw [pending_eq s hat rfl]
  show (s.pushed.map Prod.snd).flatten ++ ((value ++ data.flatten) ++ s.buffer) =
    (s.pushed.map Prod.snd).flatten ++
      ((s.assign value).content s.producing ++ data.flatten ++ s.buffer)
  rw [hcontent]

theorem Hashed.hashInline (hs : Hashed s) {value : Bytes}
    (hat : s.producer = .writing (value :: data) call) :
    Hashed { s.hashInline value with producer := .writing data call } := by
  have hplace := hs.place
  rw [hat] at hplace
  obtain ⟨hclosed, hbuffer, hunraised⟩ := hplace
  refine { inline := hs.inline, present := hs.present, inner := ?_, order := ?_, place := ?_ }
  · intro hraised
    obtain ⟨hgiven, hdropped⟩ := hs.inner hraised
    refine ⟨?_, hdropped⟩
    show (s.inner.write value).given = ((s.hashed ++ [(s.producing, value)]).map Prod.snd).flatten
    rw [HashSink.given_write, hgiven]
    simp
  · intro hsound
    have horder := hs.order hsound
    rw [pending_eq s hat rfl] at horder
    show s.written = ((s.pushed ++ [(s.producing, value)]).map Prod.snd).flatten ++
      ([] ++ data.flatten ++ s.buffer)
    rw [horder]
    simp [Producer.rest]
  · refine ⟨fun hclose => ?_, hbuffer, hunraised⟩
    have hnil := (hclosed hclose).1
    cases hnil

theorem Hashed.push (hs : Hashed s) (hat : s.producer = .pushing data call) :
    Hashed (s.push maxQueued data call) := by
  have hplace := hs.place
  rw [hat] at hplace
  obtain ⟨hopen, hthreaded, hbuffer⟩ := hplace
  have hinline : s.threaded ≠ false := by simp [hthreaded]
  have horder := hs.order (Or.inl hthreaded)
  unfold State.push
  split
  · obtain ⟨producing, free, heap, hrenew⟩ := renew_eq { s with
      chunks := s.chunks ++ [s.producing]
      pushed := s.pushed ++ [(s.producing, s.content s.producing)] }
    have hpushed : s.written =
        ((s.pushed ++ [(s.producing, s.content s.producing)]).map Prod.snd).flatten ++
          ([] ++ data.flatten ++ s.buffer) := by
      rw [horder, State.pending, hat]
      simp [Producer.rest, Producer.isAssigned]
    dsimp only
    rw [hrenew]
    split
    · exact { inline := fun h => absurd h hinline, present := hs.present, inner := hs.inner,
              order := fun _ => hpushed, place := ⟨hopen, hthreaded, hbuffer⟩ }
    · refine { inline := fun h => absurd h hinline, present := hs.present, inner := hs.inner,
               order := fun _ => hpushed, place := ⟨fun hclosed => ?_, hbuffer, fun _ h => ?_⟩ }
      · exact absurd (hopen.symm.trans hclosed) Bool.false_ne_true
      · exact absurd h hinline
  · refine hs.produce rfl .rfl rfl rfl rfl rfl rfl rfl (fun h => ?_) ⟨hopen, hthreaded, hbuffer⟩
    refine h.trans ?_
    rw [State.pending, hat]
    rfl

theorem Hashed.pop (hs : Hashed s) (hat : s.worker = .locking) : Hashed (s.pop maxQueued) := by
  have hpresent : s.worker ≠ .absent := by simp [hat]
  have hfailure := (hs.started hpresent).2
  unfold State.pop
  split
  · split
    all_goals exact hs.work hpresent (by simp) rfl rfl rfl rfl rfl rfl id hfailure id hs.inner
  · dsimp only
    split
    all_goals exact hs.work hpresent (by simp) rfl rfl rfl rfl rfl rfl id hfailure id hs.inner

theorem Hashed.recycle (hs : Hashed s) (hbuffers : Buffers s) (hat : s.worker = .recycling chunk) :
    Hashed { s.recycle chunk with worker := .locking } := by
  have hpresent : s.worker ≠ .absent := by simp [hat]
  have hfailure := (hs.started hpresent).2
  have hother : s.producing ≠ chunk := by
    have hnotmem := (List.nodup_cons.mp hbuffers.distinct).1
    rw [hat] at hnotmem
    rintro rfl
    exact hnotmem (by simp [Worker.held])
  have hcontent : (s.recycle chunk).content s.producing = s.content s.producing := by
    simp [State.content, State.recycle, List.getD_eq_getElem?_getD,
      List.getElem?_set_ne hother.symm]
  refine hs.work hpresent (by simp) rfl rfl rfl rfl rfl ?_ id hfailure id hs.inner
  show (if s.producer.isAssigned then (s.recycle chunk).content s.producing else []) ++ _ ++ _ = _
  rw [hcontent]
  rfl

/-- Once the worker has ended, everything pushed has been hashed, or dropped. -/
theorem Hashed.leave (hs : Hashed s) (hwatched : Watched maxQueued s) (hbuffers : Buffers s)
    (hat : s.producer = .joining call) (hworker : s.worker = .exited ∨ s.worker = .absent) :
    Hashed (s.leave call) := by
  have hplace := hs.place
  rw [hat] at hplace
  obtain ⟨hclosed, hcall, hbuffer, hunraised⟩ := hplace
  have hchunks : s.chunks = [] := by
    rcases hworker with hexited | habsent
    · exact (hwatched.exited hexited).2
    · refine (hs.inline ?_).2.1
      by_contra hthreaded
      exact (hs.present (by simpa using hthreaded)).1 habsent
  have hpushed : s.pushed = s.hashed ++ s.dropped := by
    have hunhashed : s.worker.unhashed = [] := by
      rcases hworker with h | h
      · rw [h]; rfl
      · rw [h]; rfl
    rw [hbuffers.queued, hunhashed, hchunks]
    exact List.append_nil _
  have hpending : s.pending = s.buffer := by
    rw [pending_eq s hat rfl]
    rfl
  have hkept : ∀ {pc : Producer}, pc.isAssigned = false → pc.rest = [] → Place s pc →
      Hashed { s with producer := pc } := by
    intro pc hassigned hrest hpc
    refine hs.produce rfl .rfl rfl rfl rfl rfl rfl rfl (fun horder => ?_) ?_
    · refine horder.trans ?_
      rw [hpending, pending_eq _ rfl hassigned, hrest]
      rfl
    · exact hpc.frame rfl rfl rfl rfl id id
  cases call with
  | write => exact absurd rfl hcall
  | finish =>
      unfold State.leave
      dsimp only
      split
      · rename_i hfailure
        refine hkept rfl rfl ⟨?_, fun _ => hbuffer⟩
        cases hthreaded : s.threaded with
        | false => exact absurd hfailure (by simp [(hs.inline hthreaded).2.2.2])
        | true => exact (hs.present hthreaded).2.trans hfailure
      · rename_i hfailure
        have hraised : s.raised = false := by
          cases hthreaded : s.threaded with
          | false => exact hunraised (by simp) hthreaded
          | true => exact (hs.present hthreaded).2.trans (by simpa using hfailure)
        obtain ⟨hgiven, hdropped⟩ := hs.inner hraised
        have hall : s.inner.given = s.written := by
          rw [hgiven, hs.order (Or.inr hraised), hpending, hbuffer, hpushed, hdropped,
            List.append_nil, List.append_nil]
        refine hkept rfl rfl ⟨hbuffer, ?_⟩
        rw [HashSink.finish_eq, hall]
  | destroy => exact hkept rfl rfl trivial

/-- Without a thread the exception reaches the caller, who has only the destructor left. -/
theorem Hashed.produceThrow {pc : Producer} (hs : Hashed s) (hinline : s.threaded = false)
    (left : HashSink) (hplace : Place { s with raised := true } pc) :
    Hashed { s with inner := left, raised := true, producer := pc } := by
  refine { inline := hs.inline, present := fun h => ?_, inner := fun h => ?_, order := fun h => ?_,
           place := hplace.frame rfl rfl rfl rfl id id }
  · exact absurd (hinline.symm.trans h) Bool.false_ne_true
  · cases h
  · rcases h with h | h
    · exact absurd (hinline.symm.trans h) Bool.false_ne_true
    · cases h

theorem Hashed.step (hs : Hashed s) (hbuffers : Buffers s) (hwatched : Watched maxQueued s)
    (h : step maxQueued s e = some t) : Hashed t := by
  have hplace := hs.place
  cases e with
  | write data =>
      simp only [AsyncHashSink.step] at h
      split at h
      · rename_i hat
        obtain rfl := Option.some.inj h
        rw [hat] at hplace
        obtain ⟨hopen, hunraised⟩ := hplace
        refine hs.produce rfl .rfl rfl rfl rfl rfl rfl rfl (fun horder => ?_)
          ⟨fun hclosed => ?_, fun hne => absurd rfl hne, fun _ => hunraised⟩
        · show s.written ++ data = (s.pushed.map Prod.snd).flatten ++
            ([] ++ (bufferedWrite bufSize s.buffer data).1.flatten ++
              (bufferedWrite bufSize s.buffer data).2)
          rw [horder, pending_eq s hat rfl, List.nil_append, bufferedWrite_flatten]
          simp [Producer.rest]
        · exact absurd (hopen.symm.trans hclosed) Bool.false_ne_true
      · cases h
  | finish =>
      simp only [AsyncHashSink.step] at h
      split at h
      · rename_i hat
        obtain rfl := Option.some.inj h
        rw [hat] at hplace
        obtain ⟨hopen, hunraised⟩ := hplace
        refine hs.flush (by rw [hat]; rfl) (by rw [hat]; rfl) _
          ⟨fun hclosed => ?_, fun _ => rfl, fun _ => hunraised⟩
        exact absurd (hopen.symm.trans hclosed) Bool.false_ne_true
      · cases h
  | destroy =>
      simp only [AsyncHashSink.step] at h
      split at h
      · rename_i hat
        obtain rfl := Option.some.inj h
        rw [hat] at hplace
        refine hs.flush (by rw [hat]; rfl) (by rw [hat]; rfl) _
          ⟨fun hclosed => ?_, fun _ => rfl, fun hne => absurd rfl hne⟩
        exact absurd (hplace.1.symm.trans hclosed) Bool.false_ne_true
      · rename_i result hat
        obtain rfl := Option.some.inj h
        rw [hat] at hplace
        refine hs.flush (by rw [hat]; rfl) (by rw [hat]; rfl) _
          ⟨fun _ => ⟨?_, rfl⟩, fun _ => rfl, fun hne => absurd rfl hne⟩
        rw [hplace.1]
        rfl
      · rename_i hat
        obtain rfl := Option.some.inj h
        rw [hat] at hplace
        refine hs.flush (by rw [hat]; rfl) (by rw [hat]; rfl) _
          ⟨fun hclosed => ⟨?_, rfl⟩, fun _ => rfl, fun hne => absurd rfl hne⟩
        rw [hplace.2 hclosed]
        rfl
      · cases h
  | produce =>
      simp only [AsyncHashSink.step] at h
      split at h
      · rename_i hat
        obtain rfl := Option.some.inj h
        rw [hat] at hplace
        obtain ⟨hclosed, -, hunraised⟩ := hplace
        have hopen : s.closed = false := by
          by_contra hne
          have hcall := (hclosed (by simpa using hne)).2
          cases hcall
        refine hs.produce rfl .rfl rfl rfl rfl rfl rfl rfl (fun horder => horder.trans ?_)
          ⟨hopen, hunraised (by simp)⟩
        rw [pending_eq s hat rfl]
        rfl
      · rename_i call hne hat
        obtain rfl := Option.some.inj h
        rw [hat] at hplace
        obtain ⟨-, hbuffer, hunraised⟩ := hplace
        refine hs.produce rfl .rfl rfl rfl rfl rfl rfl rfl (fun horder => horder.trans ?_)
          ⟨hne, hbuffer hne, hunraised⟩
        rw [pending_eq s hat rfl]
        rfl
      · rename_i value data call hat
        split at h
        · rename_i hthreaded
          obtain rfl := Option.some.inj h
          exact hs.assign hbuffers hat hthreaded
        · obtain rfl := Option.some.inj h
          exact hs.hashInline hat
      · cases h
  | produceThrow left =>
      simp only [AsyncHashSink.step] at h
      split at h
      · rename_i value data call hat
        rw [hat] at hplace
        split at h
        · cases h
        · rename_i hinline
          split at h
          · obtain rfl := Option.some.inj h
            exact hs.produceThrow (by simpa using hinline) left trivial
          · obtain rfl := Option.some.inj h
            refine hs.produceThrow (by simpa using hinline) left ⟨rfl, fun hclosed => ?_⟩
            have hnil := (hplace.1 hclosed).1
            cases hnil
      · cases h
  | push =>
      simp only [AsyncHashSink.step] at h
      split at h
      · rename_i data call hat
        obtain rfl := Option.some.inj h
        exact hs.push hat
      · cases h
  | notifyPush =>
      simp only [AsyncHashSink.step] at h
      split at h
      · rename_i data call hat
        obtain rfl := Option.some.inj h
        rw [hat] at hplace
        obtain ⟨hopen, hthreaded, hbuffer⟩ := hplace
        refine hs.produce rfl (Worker.wake_absent s.worker) rfl rfl rfl rfl rfl rfl
          (fun horder => horder.trans ?_) ⟨fun hclosed => ?_, hbuffer, fun _ hinline => ?_⟩
        · rw [pending_eq s hat rfl]
          rfl
        · exact absurd (hopen.symm.trans hclosed) Bool.false_ne_true
        · exact absurd (hinline.symm.trans hthreaded) Bool.false_ne_true
      · cases h
  | close =>
      simp only [AsyncHashSink.step] at h
      split at h
      · rename_i call hat
        obtain rfl := Option.some.inj h
        rw [hat] at hplace
        obtain ⟨hcall, hbuffer, hunraised⟩ := hplace
        refine hs.produce rfl .rfl rfl rfl rfl rfl rfl rfl (fun horder => horder.trans ?_)
          ⟨rfl, hcall, hbuffer, hunraised⟩
        rw [pending_eq s hat rfl]
        rfl
      · cases h
  | notifyClosed =>
      simp only [AsyncHashSink.step] at h
      split at h
      · rename_i call hat
        obtain rfl := Option.some.inj h
        rw [hat] at hplace
        refine hs.produce rfl (Worker.wake_absent s.worker) rfl rfl rfl rfl rfl rfl
          (fun horder => horder.trans ?_) hplace
        rw [pending_eq s hat rfl]
        rfl
      · cases h
  | join =>
      simp only [AsyncHashSink.step] at h
      split at h
      · rename_i call hat hworker
        obtain rfl := Option.some.inj h
        exact hs.leave hwatched hbuffers hat (Or.inl hworker)
      · rename_i call hat hworker
        obtain rfl := Option.some.inj h
        exact hs.leave hwatched hbuffers hat (Or.inr hworker)
      · cases h
  | pop =>
      simp only [AsyncHashSink.step] at h
      split at h
      · rename_i hat
        obtain rfl := Option.some.inj h
        exact hs.pop hat
      · rename_i chunk hat
        obtain rfl := Option.some.inj h
        rw [← pop_worker _ .locking]
        exact (hs.recycle hbuffers hat).pop rfl
      · cases h
  | notifyPop =>
      simp only [AsyncHashSink.step] at h
      split at h
      · rename_i chunk hat
        obtain rfl := Option.some.inj h
        have hstarted : s.worker ≠ .absent := by simp [hat]
        have hpending : State.pending { s with worker := .hashing chunk, producer := s.producer.wake } =
            s.pending := by
          unfold State.pending
          cases s.producer <;> rfl
        refine hs.work hstarted (by simp) rfl rfl rfl rfl rfl hpending ?_ (hs.started hstarted).2 id hs.inner
        show Place s s.producer → Place s s.producer.wake
        cases s.producer <;> exact id
      · cases h
  | hash =>
      simp only [AsyncHashSink.step] at h
      split at h
      · rename_i chunk hat
        split at h
        · rename_i hfailure
          obtain rfl := Option.some.inj h
          have hstarted : s.worker ≠ .absent := by simp [hat]
          have hraised := (hs.started hstarted).2.trans hfailure
          refine hs.work hstarted (by simp) rfl rfl rfl rfl rfl rfl id (hs.started hstarted).2 id ?_
          exact fun hnone => absurd (hraised.symm.trans hnone) Bool.false_ne_true.symm
        · obtain rfl := Option.some.inj h
          have hstarted : s.worker ≠ .absent := by simp [hat]
          refine hs.work hstarted (by simp) rfl rfl rfl rfl rfl rfl id (hs.started hstarted).2 id ?_
          intro hraised
          obtain ⟨hgiven, hdropped⟩ := hs.inner hraised
          refine ⟨?_, hdropped⟩
          show (s.inner.write (s.content chunk)).given =
            ((s.hashed ++ [(chunk, s.content chunk)]).map Prod.snd).flatten
          rw [HashSink.given_write, hgiven]
          simp
      · cases h
  | hashThrow left =>
      simp only [AsyncHashSink.step] at h
      split at h
      · rename_i chunk hat
        split at h
        · cases h
        · obtain rfl := Option.some.inj h
          have hstarted : s.worker ≠ .absent := by simp [hat]
          refine hs.work hstarted (by simp) rfl rfl rfl rfl rfl rfl id rfl (fun _ => rfl) ?_
          intro hnone
          cases hnone
      · cases h
  | spuriousPush =>
      simp only [AsyncHashSink.step] at h
      split at h
      · rename_i hat
        obtain rfl := Option.some.inj h
        have hstarted : s.worker ≠ .absent := by simp [hat]
        exact hs.work hstarted (by simp) rfl rfl rfl rfl rfl rfl id (hs.started hstarted).2 id hs.inner
      · cases h
  | spuriousPop =>
      simp only [AsyncHashSink.step] at h
      split at h
      · rename_i data call hat
        obtain rfl := Option.some.inj h
        rw [hat] at hplace
        refine hs.produce rfl .rfl rfl rfl rfl rfl rfl rfl (fun horder => horder.trans ?_) hplace
        rw [State.pending, hat]
        rfl
      · cases h

/-! ## Runs -/

structure Inv (maxQueued : Nat) (s : State) : Prop where
  buffers : Buffers s
  hashed : Hashed s
  watched : Watched maxQueued s

theorem inv_initial (maxQueued : Nat) (threaded : Bool) : Inv maxQueued (initial threaded) := by
  refine { buffers := ?_, hashed := ?_, watched := ?_ }
  · cases threaded
    · exact ⟨List.nodup_singleton 0, by simp [State.owned, initial, Worker.held], rfl⟩
    · exact ⟨List.nodup_singleton 0, by simp [State.owned, initial, Worker.held], rfl⟩
  · refine { inline := ?_, present := ?_, inner := fun _ => ⟨rfl, rfl⟩, order := fun _ => rfl,
             place := ⟨rfl, fun _ => rfl⟩ }
    · rintro rfl
      exact ⟨rfl, rfl, rfl, rfl⟩
    · rintro rfl
      exact ⟨fun habsent => (by cases habsent), rfl⟩
  · cases threaded <;> constructor <;> simp [initial]

theorem inv_of_reachable (h : (system maxQueued).Reachable s) : Inv maxQueued s := by
  refine h.invariant ?_ ?_
  · rintro _ ⟨threaded, rfl⟩
    exact inv_initial maxQueued threaded
  · intro s e t hs hstep
    exact ⟨hs.buffers.step hs.hashed hstep, hs.hashed.step hs.buffers hs.watched hstep,
      hs.watched.step hs.hashed hstep⟩

/-- A worker that neither waits nor has ended can go on. -/
theorem awake_step (habsent : s.worker ≠ .absent) (hwait : s.worker ≠ .waiting)
    (hexit : s.worker ≠ .exited) : ∃ e t, step maxQueued s e = some t ∧ e.isSpurious = false := by
  cases hat : s.worker with
  | absent => exact absurd hat habsent
  | locking => exact ⟨.pop, _, by simp only [step, hat]; rfl, rfl⟩
  | waiting => exact absurd hat hwait
  | notifyPop chunk => exact ⟨.notifyPop, _, by simp only [step, hat]; rfl, rfl⟩
  | hashing chunk =>
      by_cases hfailure : s.failure = true
      · exact ⟨.hash, _, by simp only [step, hat, hfailure, if_true]; rfl, rfl⟩
      · exact ⟨.hash, _, by simp only [step, hat, hfailure]; rfl, rfl⟩
  | recycling chunk => exact ⟨.pop, _, by simp only [step, hat]; rfl, rfl⟩
  | exited => exact absurd hat hexit

namespace Producer

/-- In a call that has neither returned nor thrown. -/
def isCalling : Producer → Bool
  | .idle => false
  | .returned _ => false
  | .threw => false
  | .destroyed => false
  | _ => true

end Producer

/-- A call that has not returned does not hang. -/
theorem Inv.progress (hs : Inv maxQueued s) (hpos : 0 < maxQueued)
    (hcalling : s.producer.isCalling = true) :
    ∃ e t, step maxQueued s e = some t ∧ e.isSpurious = false := by
  have hplace := hs.hashed.place
  cases hat : s.producer with
  | writing data call =>
      cases data with
      | nil =>
          cases call with
          | write => exact ⟨.produce, _, by simp only [step, hat]; rfl, rfl⟩
          | finish => exact ⟨.produce, _, by simp only [step, hat]; rfl, rfl⟩
          | destroy => exact ⟨.produce, _, by simp only [step, hat]; rfl, rfl⟩
      | cons value data =>
          by_cases hthreaded : s.threaded = true
          · exact ⟨.produce, _, by simp only [step, hat, hthreaded, if_true]; rfl, rfl⟩
          · exact ⟨.produce, _, by simp only [step, hat, hthreaded]; rfl, rfl⟩
  | pushing data call => exact ⟨.push, _, by simp only [step, hat]; rfl, rfl⟩
  | waiting data call =>
      rw [hat] at hplace
      have hpresent := (hs.hashed.present hplace.2.1).1
      rcases hs.watched.room data call hat with hfull | ⟨chunk, hnotify⟩
      · have hchunks : s.chunks ≠ [] := by
          intro hnil
          rw [hnil] at hfull
          exact absurd hfull hpos.ne
        refine awake_step hpresent (fun hwait => ?_) fun hexit => ?_
        · obtain ⟨data', call', hnotify⟩ := hs.watched.heard hwait hchunks
          rw [hat] at hnotify
          cases hnotify
        · exact hchunks (hs.watched.exited hexit).2
      · exact awake_step hpresent (by simp [hnotify]) (by simp [hnotify])
  | notifyPush data call => exact ⟨.notifyPush, _, by simp only [step, hat]; rfl, rfl⟩
  | closing call => exact ⟨.close, _, by simp only [step, hat]; rfl, rfl⟩
  | notifyClosed call => exact ⟨.notifyClosed, _, by simp only [step, hat]; rfl, rfl⟩
  | joining call =>
      rw [hat] at hplace
      by_cases hexit : s.worker = .exited
      · exact ⟨.join, _, by simp only [step, hat, hexit]; rfl, rfl⟩
      · by_cases habsent : s.worker = .absent
        · exact ⟨.join, _, by simp only [step, hat, habsent]; rfl, rfl⟩
        · refine awake_step habsent (fun hwait => ?_) hexit
          obtain ⟨call', hnotify⟩ := hs.watched.told hwait hplace.1
          rw [hat] at hnotify
          cases hnotify
  | _ =>
      rw [hat] at hcalling
      cases hcalling

/-- With a thread or without, `finish()` returns the hash and the length of everything
written, or throws because the hasher has thrown.  What was written is hashed in order, and
a buffer is filled again only when it holds nothing still to be hashed.  Nobody waits for
what is already there without a notification under way, so that no call hangs, even while
the worker only drains the queue. -/
theorem finish_hashes_writes (hpos : 0 < maxQueued) (h : (system maxQueued).Reachable s) :
    (∀ result, s.producer = .returned result → result = hashSink s.written) ∧
      (s.producer = .threw → s.raised = true) ∧
      (s.hashed <+: s.pushed ∧ (s.threaded = true ∨ s.raised = false →
        (s.pushed.map Prod.snd).flatten <+: s.written)) ∧
      ((∀ b, b = s.producing ∨ b ∈ s.free →
        s.pushed.filter (·.1 = b) = (s.hashed ++ s.dropped).filter (·.1 = b)) ∧
        (s.raised = false → s.dropped = [])) ∧
      (∀ data call, s.producer = .waiting data call →
        s.worker ≠ .waiting ∧ (s.chunks.length < maxQueued → ∃ chunk, s.worker = .notifyPop chunk)) ∧
      (s.worker = .waiting → s.chunks ≠ [] → ∃ data call, s.producer = .notifyPush data call) ∧
      (s.producer.isCalling = true →
        ∃ e t, step maxQueued s e = some t ∧ e.isSpurious = false) := by
  have hs := inv_of_reachable h
  have hplace := hs.hashed.place
  refine ⟨fun result hat => ?_, fun hat => ?_, ⟨?_, fun hsound => ?_⟩,
    ⟨fun b hb => hs.buffers.recycled hb, fun hraised => (hs.hashed.inner hraised).2⟩,
    fun data call hat => ⟨fun hwait => ?_, fun hroom => ?_⟩, hs.watched.heard, hs.progress hpos⟩
  · rw [hat] at hplace
    exact hplace.2
  · rw [hat] at hplace
    exact hplace.1
  · rw [hs.buffers.queued, List.append_assoc]
    exact List.prefix_append _ _
  · rw [hs.hashed.order hsound]
    exact List.prefix_append _ _
  · rcases hs.watched.room data call hat with hfull | ⟨chunk, hnotify⟩
    · have hchunks : s.chunks ≠ [] := by
        intro hnil
        rw [hnil] at hfull
        exact absurd hfull hpos.ne
      obtain ⟨data', call', hnotify⟩ := hs.watched.heard hwait hchunks
      rw [hat] at hnotify
      cases hnotify
    · rw [hwait] at hnotify
      cases hnotify
  · rcases hs.watched.room data call hat with hfull | hnotify
    · omega
    · exact hnotify

/-! ## Results of `finish()` -/

/-- `finish()` may return this after the data was written, in whatever pieces, with a
thread or without. -/
def MayReturn (written : Bytes) (result : HashResult) : Prop :=
  ∃ maxQueued s, (system maxQueued).Reachable s ∧ s.written = written ∧
    s.producer = .returned result

/-- Without a thread a call hashes its chunks one after the other. -/
theorem produce_all {data : List Bytes} {call : Call} (h : (system maxQueued).Reachable s)
    (hinline : s.threaded = false) (hat : s.producer = .writing data call) :
    ∃ t, (system maxQueued).Reachable t ∧ t.producer = .writing [] call ∧
      (t.threaded = false ∧ t.written = s.written) ∧
      (t.failure = s.failure ∧ t.worker = s.worker) := by
  induction data generalizing s with
  | nil => exact ⟨s, h, hat, ⟨hinline, rfl⟩, rfl, rfl⟩
  | cons chunk data ih =>
      have hnext : (system maxQueued).Reachable
          { s.hashInline chunk with producer := .writing data call } :=
        h.of_steps [.produce] (by simp [TransitionSystem.follow, step, hat, hinline])
      obtain ⟨t, ht⟩ := ih hnext hinline rfl
      exact ⟨t, ht⟩

/-- The sink without a thread returns. -/
theorem exists_returned (maxQueued : Nat) (written : Bytes) :
    ∃ s result, (system maxQueued).Reachable s ∧ s.written = written ∧
      s.producer = .returned result := by
  have hstart : (system maxQueued).Reachable (initial false) := .of_init ⟨false, rfl⟩
  have hwriting := hstart.of_steps [.write written] rfl
  obtain ⟨s, hs, hat, ⟨hinline, hwritten⟩, hfailure, hworker⟩ := produce_all hwriting rfl rfl
  have hfinishing : (system maxQueued).Reachable
      { s with buffer := [], producer := .writing (flush s.buffer) .finish } :=
    hs.of_steps [.produce, .finish] (by simp [TransitionSystem.follow, step, hat, State.leave])
  obtain ⟨t, ht, hat', ⟨-, hwritten'⟩, hfailure', hworker'⟩ := produce_all hfinishing hinline rfl
  have habsent : t.worker = .absent := hworker'.trans hworker
  have hsound : t.failure = false := hfailure'.trans hfailure
  have hreturned : (system maxQueued).Reachable
      { t with closed := true, producer := .returned t.inner.finish } :=
    ht.of_steps [.produce, .close, .notifyClosed, .join] (by
      simp [TransitionSystem.follow, step, hat', habsent, hsound, Worker.wake, State.leave])
  exact ⟨_, t.inner.finish, hreturned, hwritten'.trans hwritten, rfl⟩

theorem mayReturn_iff {written : Bytes} {result : HashResult} :
    MayReturn written result ↔ result = hashSink written := by
  have hsound : ∀ {r}, MayReturn written r → r = hashSink written := by
    rintro r ⟨maxQueued, s, hs, rfl, hat⟩
    have hplace := (inv_of_reachable hs).hashed.place
    rw [hat] at hplace
    exact hplace.2
  refine ⟨hsound, ?_⟩
  rintro rfl
  obtain ⟨s, result, hs, hwritten, hat⟩ := exists_returned 1 written
  obtain rfl := hsound ⟨1, s, hs, hwritten, hat⟩
  exact ⟨1, s, hs, hwritten, hat⟩

end Steps

namespace Example

@[reducible] def sha256 : Sha256 := .ofTable [] fun _ h => by cases h

/-- Two writes through a queue of one buffer. -/
def events : List Event :=
  [.write [97, 98], .produce, .write [99], .produce, .finish, .pop, .produce, .push, .notifyPush,
    .produce, .close, .notifyClosed, .pop, .notifyPop, .hash, .pop, .join]

def last : State where
  threaded := true
  buffer := []
  inner := ⟨[97, 98, 99], [], 0, HashSink.new.counted⟩
  heap := [[], []]
  chunks := []
  free := [0]
  producing := 1
  closed := true
  failure := false
  producer := .returned ⟨List.replicate hashSizeSha256 0, 3⟩
  worker := .exited
  written := [97, 98, 99]
  pushed := [(0, [97, 98, 99])]
  hashed := [(0, [97, 98, 99])]
  dropped := []
  raised := false

end Example

theorem finish_hashes_writes_example :
    (@system Example.sha256 1).Reachable Example.last ∧
      (⟨List.replicate hashSizeSha256 0, 3⟩ : HashResult) = @hashSink Example.sha256 [97, 98, 99] := by
  have hstart : (@system Example.sha256 1).Reachable (initial true) := .of_init ⟨true, rfl⟩
  have hend : (@system Example.sha256 1).Reachable Example.last :=
    hstart.of_steps Example.events (by decide +kernel)
  exact ⟨hend, (@finish_hashes_writes 1 _ Example.sha256 (by decide) hend).1 _ rfl⟩

end AsyncHashSink
end Store
end Archinix
