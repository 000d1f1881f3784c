import Archinix.Store.DedupSwapPool

/-!
# Runs of the pool of dedup swaps

Where every posted job is, what has still to be counted, and who has to be woken; and
from these `posted_jobs_swapped_once`.
-/

namespace Archinix
namespace Store
namespace DedupSwapPool

open Foundation

variable {s t : State} {worker : Nat} {pc pc' : Consumer}

/-! ## Sums over the consumers -/

section Sums

variable {α : Type*} {M : Type*} [AddCommMonoid M]

theorem sum_map_set (f : α → M) {l : List α} {i : Nat} {a : α} (b : α) (h : l[i]? = some a) :
    ((l.set i b).map f).sum + f a = (l.map f).sum + f b := by
  induction l generalizing i with
  | nil => cases h
  | cons x l ih =>
      cases i with
      | zero =>
          obtain rfl : x = a := by simpa using h
          simp only [List.set_cons_zero, List.map_cons, List.sum_cons]
          rw [add_comm (f b), add_right_comm, add_comm (f x), add_right_comm]
      | succ i =>
          have hrest := ih (i := i) (by simpa using h)
          simp only [List.set_cons_succ, List.map_cons, List.sum_cons, add_assoc, hrest]

end Sums

namespace State

/-- The jobs the consumers hold. -/
def held (s : State) : Multiset Job := (s.workers.map Consumer.held).sum

/-- What the consumers have still to count. -/
def owed (s : State) : Totals := (s.workers.map Consumer.owed).sum

/-- Every job: executed, taken or still queued. -/
def had (s : State) : Multiset Job := s.executed + s.held + s.jobs

/-- What is counted, or owed to the count. -/
def counts (s : State) : Totals := (s.swappedFiles, s.swappedBytes) + s.owed

/-- The jobs whose swap replaced the copy, as `finish` is to count them. -/
def worth (s : State) : Totals := (s.succeeded.map Job.worth).sum

end State

theorem held_goto (pc' : Consumer) (hat : s.workers[worker]? = some pc) :
    (s.goto worker pc').held + pc.held = s.held + pc'.held :=
  sum_map_set _ _ hat

theorem owed_goto (pc' : Consumer) (hat : s.workers[worker]? = some pc) :
    (s.goto worker pc').owed + pc.owed = s.owed + pc'.owed :=
  sum_map_set _ _ hat

theorem had_goto (pc' : Consumer) (hat : s.workers[worker]? = some pc) :
    (s.goto worker pc').had + pc.held = s.had + pc'.held := by
  show s.executed + (s.goto worker pc').held + s.jobs + pc.held =
    s.executed + s.held + s.jobs + pc'.held
  rw [add_right_comm, add_assoc (s.executed : Multiset Job), held_goto pc' hat, ← add_assoc,
    add_right_comm]

theorem counts_goto (pc' : Consumer) (hat : s.workers[worker]? = some pc) :
    (s.goto worker pc').counts + pc.owed = s.counts + pc'.owed := by
  show (s.swappedFiles, s.swappedBytes) + (s.goto worker pc').owed + pc.owed =
    (s.swappedFiles, s.swappedBytes) + s.owed + pc'.owed
  rw [add_assoc, owed_goto pc' hat, add_assoc]

theorem held_notifyAll (s : State) : s.notifyAll.held = s.held := by
  show ((s.workers.map Consumer.wake).map Consumer.held).sum = _
  rw [List.map_map]
  congr 2
  funext pc
  cases pc <;> rfl

theorem owed_notifyAll (s : State) : s.notifyAll.owed = s.owed := by
  show ((s.workers.map Consumer.wake).map Consumer.owed).sum = _
  rw [List.map_map]
  congr 2
  funext pc
  cases pc <;> rfl

theorem had_notifyAll (s : State) : s.notifyAll.had = s.had := by
  rw [State.had, held_notifyAll]
  rfl

theorem counts_notifyAll (s : State) : s.notifyAll.counts = s.counts := by
  rw [State.counts, owed_notifyAll]
  rfl

/-! ## Where the jobs and the counts are -/

/-- The first call of `finish` is given the whole count, every later one nothing. -/
def Totalled (worth : Totals) : List (Totals × Totals) → Prop
  | [] => True
  | (totals, totals') :: rest => totals' = totals + worth ∧ ∀ call ∈ rest, call.2 = call.1

/-- No job is lost or executed twice, and no replaced copy is left out of the count. -/
structure Accounted (s : State) : Prop where
  jobs : (s.posted : Multiset Job) = s.had
  succeeded : s.succeeded.Sublist s.executed
  counted : s.finishes = [] → s.counts = s.worth
  moved : s.finishes ≠ [] → s.swappedFiles = 0 ∧ s.swappedBytes = 0
  totalled : Totalled s.worth s.finishes

/-! ## Who waits, and who is to wake them -/

/-- The producer waits only while the queue is full or a consumer is about to notify it;
a consumer waits beside a job, or after `closed`, only while the producer is about to
notify all. -/
structure Watched (s : State) : Prop where
  bounded : s.jobs.length ≤ maxQueued
  room : ∀ job, s.producer = .waiting job →
    s.jobs.length = maxQueued ∨ ∃ job', Consumer.notifyPop job' ∈ s.workers
  heard : Consumer.waiting ∈ s.workers → s.jobs ≠ [] → s.producer = .notifyPush
  told : Consumer.waiting ∈ s.workers → s.closed = true → ∃ totals, s.producer = .notifyClosed totals
  exited : Consumer.exited ∈ s.workers → s.closed = true ∧ s.jobs = []
  posting : s.producer.isPosting = true → s.closed = false
  reaping : s.producer.isReaping = true → s.closed = true
  reaped : (∃ totals, s.producer = .adding totals) ∨ s.finishes ≠ [] →
    ∀ pc ∈ s.workers, pc = .exited
  returned : s.producer = .finished → s.finishes ≠ []

section Moves

theorem mem_goto_of_ne {x : Consumer} (hat : s.workers[worker]? = some pc) (hx : x ∈ s.workers)
    (hne : x ≠ pc) : x ∈ (s.goto worker pc').workers := by
  obtain ⟨i, hi⟩ := List.mem_iff_getElem?.mp hx
  have hother : worker ≠ i := by
    rintro rfl
    exact hne (Option.some.inj (hi.symm.trans hat))
  apply List.mem_iff_getElem?.mpr
  exact ⟨i, (List.getElem?_set_ne hother).trans hi⟩

theorem mem_goto_self (hat : s.workers[worker]? = some pc) : pc' ∈ (s.goto worker pc').workers := by
  obtain ⟨hlt, -⟩ := List.getElem?_eq_some_iff.mp hat
  exact List.mem_set hlt _

theorem mem_notifyAll {x : Consumer} (hx : x ∈ s.notifyAll.workers) :
    x ≠ .waiting ∧ (x = .locking ∨ x ∈ s.workers) := by
  obtain ⟨y, hy, rfl⟩ := List.mem_map.mp hx
  cases y <;> simp_all [Consumer.wake]

theorem mem_notifyAll_of_ne {x : Consumer} (hx : x ∈ s.workers) (hne : x ≠ .waiting) :
    x ∈ s.notifyAll.workers := by
  apply List.mem_map.mpr
  refine ⟨x, hx, ?_⟩
  cases x <;> first | rfl | exact absurd rfl hne

/-- `finish` has not come to its sum while a consumer is still there. -/
theorem Watched.unfinished (hs : Watched s) (hat : s.workers[worker]? = some pc)
    (hexit : pc ≠ .exited) : s.finishes = [] ∧ ∀ totals, s.producer ≠ .adding totals := by
  have hpcmem : pc ∈ s.workers := List.mem_of_getElem? hat
  constructor
  · by_contra hne
    exact hexit (hs.reaped (Or.inr hne) pc hpcmem)
  · intro totals hadding
    exact hexit (hs.reaped (Or.inl ⟨totals, hadding⟩) pc hpcmem)

/-- A consumer that is awake goes on. -/
theorem Watched.move (hs : Watched s) (hat : s.workers[worker]? = some pc)
    (hpc : ∀ job, pc ≠ .notifyPop job) (hexit : pc ≠ .exited) (hwait' : pc' ≠ .waiting)
    (hexit' : pc' ≠ .exited) (hworkers : t.workers = (s.goto worker pc').workers)
    (hproducer : t.producer = s.producer) (hjobs : t.jobs = s.jobs) (hclosed : t.closed = s.closed)
    (hfinishes : t.finishes = s.finishes) : Watched t := by
  have hmem : ∀ x ∈ t.workers, x ∈ s.workers ∨ x = pc' := by
    intro x hx
    rw [hworkers] at hx
    exact List.mem_or_eq_of_mem_set hx
  refine { bounded := ?_, room := ?_, heard := ?_, told := ?_, exited := ?_, posting := ?_,
           reaping := ?_, reaped := ?_, returned := ?_ }
  · rw [hjobs]
    exact hs.bounded
  · intro job hwait
    rw [hproducer] at hwait
    rcases hs.room job hwait with hfull | ⟨job', hjob'⟩
    · exact Or.inl (hjobs ▸ hfull)
    · right
      rw [hworkers]
      exact ⟨job', mem_goto_of_ne hat hjob' (hpc job').symm⟩
  · intro hx
    rw [hproducer, hjobs]
    exact hs.heard ((hmem _ hx).resolve_right hwait'.symm)
  · intro hx
    rw [hproducer, hclosed]
    exact hs.told ((hmem _ hx).resolve_right hwait'.symm)
  · intro hx
    rw [hclosed, hjobs]
    exact hs.exited ((hmem _ hx).resolve_right hexit'.symm)
  · rw [hproducer, hclosed]
    exact hs.posting
  · rw [hproducer, hclosed]
    exact hs.reaping
  · rw [hproducer, hfinishes]
    obtain ⟨hnone, hadding⟩ := hs.unfinished hat hexit
    rintro (⟨totals, heq⟩ | hne)
    · exact absurd heq (hadding totals)
    · exact absurd hnone hne
  · rw [hproducer, hfinishes]
    exact hs.returned

/-- One round of `run`. -/
theorem Watched.pop (hs : Watched s) (hat : s.workers[worker]? = some .locking) :
    Watched (s.pop worker) := by
  obtain ⟨hfinishes, hadding⟩ := hs.unfinished hat (by simp)
  have hgoto : ∀ {x pc' : Consumer}, x ∈ s.workers.set worker pc' → x ∈ s.workers ∨ x = pc' :=
    fun hx => List.mem_or_eq_of_mem_set hx
  have hkept : ∀ {x pc' : Consumer}, x ∈ s.workers → x ≠ .locking → x ∈ s.workers.set worker pc' :=
    fun hx hne => mem_goto_of_ne hat hx hne
  have hself : ∀ pc' : Consumer, pc' ∈ s.workers.set worker pc' := fun _ => mem_goto_self hat
  obtain ⟨hbounded, hroom, hheard, htold, hexited, hposting, hreaping, -, hreturned⟩ := hs
  unfold State.pop
  split
  · rename_i hjobs
    split
    · rename_i hclosed
      constructor <;> grind [State.goto]
    · constructor <;> grind [State.goto]
  · rename_i job jobs hjobs
    have hlength : s.jobs.length = jobs.length + 1 := by rw [hjobs]; rfl
    have hnotify := hself (.notifyPop job)
    dsimp only
    split
    · constructor <;> grind [State.goto, maxQueued]
    · constructor <;> grind [State.goto, maxQueued]

/-- `post`, with the lock. -/
theorem Watched.push {job : Job} (hs : Watched s) (hat : s.producer = .pushing job) :
    Watched (s.push job) := by
  have hopen : s.closed = false := hs.posting (by rw [hat]; rfl)
  have hasleep : Consumer.waiting ∈ s.workers → s.jobs = [] := by
    intro hx
    by_contra hjobs
    have hnotify := hs.heard hx hjobs
    rw [hat] at hnotify
    cases hnotify
  have hsome : Consumer.waiting ∈ s.workers → 0 < s.workers.length := fun hx =>
    List.length_pos_of_mem hx
  obtain ⟨hbounded, hroom, hheard, htold, hexited, hposting, hreaping, hreaped, hreturned⟩ := hs
  unfold State.push
  split
  · rename_i hlt
    dsimp only
    split
    · constructor <;> grind [Producer.isPosting, Producer.isReaping]
    · -- no notification: there were jobs already, and nobody waits beside one
      constructor <;> grind [Producer.isPosting, Producer.isReaping]
  · constructor <;> grind [Producer.isPosting, Producer.isReaping]

/-- The producer goes on by itself. -/
theorem Watched.produce {pc : Producer} (hs : Watched s)
    (hroom : ∀ job, pc = .waiting job → s.jobs.length = maxQueued)
    (hstill : s.producer ≠ .notifyPush ∧ ∀ totals, s.producer ≠ .notifyClosed totals)
    (hposting : pc.isPosting = true → s.closed = false)
    (hreaping : pc.isReaping = true → s.closed = true)
    (hreaped : (∃ totals, pc = .adding totals) → ∀ pc ∈ s.workers, pc = .exited)
    (hreturned : pc = .finished → s.finishes ≠ []) : Watched { s with producer := pc } := by
  obtain ⟨hnotify, hclosing⟩ := hstill
  refine { bounded := hs.bounded, room := fun job hwait => Or.inl (hroom job hwait), heard := ?_,
           told := ?_, exited := hs.exited, posting := hposting, reaping := hreaping, reaped := ?_,
           returned := hreturned }
  · intro hx hjobs
    exact absurd (hs.heard hx hjobs) hnotify
  · intro hx hclosed
    obtain ⟨totals, htotals⟩ := hs.told hx hclosed
    exact absurd htotals (hclosing totals)
  · rintro (hadding | hfinishes)
    · exact hreaped hadding
    · exact hs.reaped (Or.inr hfinishes)

/-- Nobody waits after `notify_all`. -/
theorem Watched.notifyAll {pc : Producer} (hs : Watched s) (hwait : ∀ job, pc ≠ .waiting job)
    (hposting : pc.isPosting = true → s.closed = false)
    (hreaping : pc.isReaping = true → s.closed = true) (hadding : ∀ totals, pc ≠ .adding totals)
    (hfinished : pc ≠ .finished) : Watched { s.notifyAll with producer := pc } := by
  have hawake : Consumer.waiting ∉ s.notifyAll.workers := fun hx => (mem_notifyAll hx).1 rfl
  have hexited : ∀ pc ∈ s.notifyAll.workers, (∀ pc ∈ s.workers, pc = .exited) → pc = .exited := by
    intro pc hpc hall
    obtain ⟨pc', hpc', rfl⟩ := List.mem_map.mp hpc
    rw [hall pc' hpc']
    rfl
  refine { bounded := hs.bounded, room := fun job heq => absurd heq (hwait job),
           heard := fun hx => absurd hx hawake, told := fun hx => absurd hx hawake, exited := ?_,
           posting := hposting, reaping := hreaping, reaped := ?_,
           returned := fun heq => absurd heq hfinished }
  · intro hx
    rcases (mem_notifyAll hx).2 with hlocking | hmem
    · cases hlocking
    · exact hs.exited hmem
  · rintro (⟨totals, heq⟩ | hfinishes)
    · exact absurd heq (hadding totals)
    · intro pc hpc
      exact hexited pc hpc (hs.reaped (Or.inr hfinishes))

theorem Watched.close {totals : Totals} (hs : Watched s) (hat : s.producer = .closing totals) :
    Watched { s with closed := true, producer := .notifyClosed totals } := by
  obtain ⟨hbounded, hroom, hheard, htold, hexited, hposting, hreaping, hreaped, hreturned⟩ := hs
  constructor <;> grind [Producer.isPosting]

theorem Watched.add {totals : Totals} {files bytes : UInt64} {finishes : List (Totals × Totals)}
    (hs : Watched s) (hat : s.producer = .adding totals) (hfinishes : finishes ≠ []) :
    Watched { s with
      swappedFiles := files, swappedBytes := bytes, producer := .finished, finishes := finishes } := by
  have hall := hs.reaped (Or.inl ⟨totals, hat⟩)
  obtain ⟨hbounded, hroom, hheard, htold, hexited, hposting, hreaping, hreaped, hreturned⟩ := hs
  constructor <;> grind [Producer.isPosting, Producer.isReaping]

theorem Watched.notifyPop {job : Job} (hs : Watched s)
    (hat : s.workers[worker]? = some (.notifyPop job)) :
    Watched { s.goto worker (.swapping job) with producer := s.producer.wake } := by
  obtain ⟨hfinishes, hadding⟩ := hs.unfinished hat (by simp)
  have hgoto : ∀ x ∈ s.workers.set worker (.swapping job), x ∈ s.workers ∨ x = .swapping job :=
    fun _ hx => List.mem_or_eq_of_mem_set hx
  obtain ⟨hbounded, hroom, hheard, htold, hexited, hposting, hreaping, -, hreturned⟩ := hs
  have hwoken : (∃ job, s.producer = .waiting job ∧ s.producer.wake = .pushing job) ∨
      (s.producer.wake = s.producer ∧ ∀ job, s.producer ≠ .waiting job) := by
    cases s.producer <;> simp [Producer.wake]
  constructor <;> grind [State.goto, Producer.isPosting, Producer.isReaping]

theorem Watched.step {e : Event} (hs : Watched s) (h : step s e = some t) : Watched t := by
  cases e with
  | post job =>
      simp only [DedupSwapPool.step] at h
      split at h
      · rename_i hat
        obtain rfl := Option.some.inj h
        have hopen : s.closed = false := hs.posting (by rw [hat]; rfl)
        apply hs.produce <;> simp [hat, hopen, Producer.isReaping]
      · cases h
  | push =>
      simp only [DedupSwapPool.step] at h
      split at h
      · rename_i job hat
        obtain rfl := Option.some.inj h
        exact hs.push hat
      · cases h
  | notifyPush =>
      simp only [DedupSwapPool.step] at h
      split at h
      · rename_i hat
        obtain rfl := Option.some.inj h
        have hopen : s.closed = false := hs.posting (by rw [hat]; rfl)
        apply hs.notifyAll <;> simp [hopen, Producer.isReaping]
      · cases h
  | finish totals =>
      simp only [DedupSwapPool.step] at h
      split at h
      · rename_i hat
        obtain rfl := Option.some.inj h
        apply hs.produce <;> simp [hat, Producer.isPosting, Producer.isReaping]
      · rename_i hat
        obtain rfl := Option.some.inj h
        apply hs.produce <;> simp [hat, Producer.isPosting, Producer.isReaping]
      · cases h
  | close =>
      simp only [DedupSwapPool.step] at h
      split at h
      · rename_i totals hat
        obtain rfl := Option.some.inj h
        exact hs.close hat
      · cases h
  | notifyClosed =>
      simp only [DedupSwapPool.step] at h
      split at h
      · rename_i totals hat
        obtain rfl := Option.some.inj h
        have hclosed : s.closed = true := hs.reaping (by rw [hat]; rfl)
        apply hs.notifyAll <;> simp [hclosed, Producer.isPosting]
      · cases h
  | join =>
      simp only [DedupSwapPool.step] at h
      split at h
      · rename_i totals hat
        split at h
        · rename_i hall
          obtain rfl := Option.some.inj h
          have hexited : ∀ pc ∈ s.workers, pc = .exited := by simpa using hall
          apply hs.produce <;> simp [hat, Producer.isPosting, Producer.isReaping]
          exact hexited
        · cases h
      · cases h
  | add =>
      simp only [DedupSwapPool.step] at h
      split at h
      · rename_i totals hat
        obtain rfl := Option.some.inj h
        exact hs.add hat (by simp)
      · cases h
  | pop worker =>
      simp only [DedupSwapPool.step] at h
      split at h
      · rename_i hat
        obtain rfl := Option.some.inj h
        exact hs.pop hat
      · cases h
  | notifyPop worker =>
      simp only [DedupSwapPool.step] at h
      split at h
      · rename_i job hat
        obtain rfl := Option.some.inj h
        exact hs.notifyPop hat
      · cases h
  | swap worker result =>
      simp only [DedupSwapPool.step] at h
      split at h
      · rename_i job hat
        split at h
        all_goals
          obtain rfl := Option.some.inj h
          refine hs.move hat ?_ ?_ ?_ ?_ rfl rfl rfl rfl rfl <;> simp
      · cases h
  | addFile worker =>
      simp only [DedupSwapPool.step] at h
      split at h
      · rename_i job hat
        obtain rfl := Option.some.inj h
        refine hs.move hat ?_ ?_ ?_ ?_ rfl rfl rfl rfl rfl <;> simp
      · cases h
  | addBytes worker =>
      simp only [DedupSwapPool.step] at h
      split at h
      · rename_i job hat
        obtain rfl := Option.some.inj h
        refine hs.move hat ?_ ?_ ?_ ?_ rfl rfl rfl rfl rfl <;> simp
      · cases h
  | spurious worker =>
      simp only [DedupSwapPool.step] at h
      split at h
      · rename_i hat
        obtain rfl := Option.some.inj h
        refine hs.move hat ?_ ?_ ?_ ?_ rfl rfl rfl rfl rfl <;> simp
      · cases h
  | spuriousPop =>
      simp only [DedupSwapPool.step] at h
      split at h
      · rename_i job hat
        obtain rfl := Option.some.inj h
        have hopen : s.closed = false := hs.posting (by rw [hat]; rfl)
        apply hs.produce <;> simp [hat, hopen, Producer.isReaping]
      · cases h

/-- A step before the first sum, after which every job is still there and every count
still due. -/
theorem Accounted.move (hs : Accounted s) (hopen : s.finishes = []) (hposted : t.posted = s.posted)
    (hhad : t.had = s.had) (hsucceeded : t.succeeded.Sublist t.executed)
    (hcounts : t.counts + s.worth = s.counts + t.worth) (hfinishes : t.finishes = s.finishes) :
    Accounted t := by
  have hclosed : t.finishes = [] := hfinishes.trans hopen
  refine { jobs := ?_, succeeded := hsucceeded, counted := ?_, moved := ?_, totalled := ?_ }
  · rw [hposted, hhad]
    exact hs.jobs
  · intro _
    rw [hs.counted hopen, add_comm] at hcounts
    exact add_left_cancel hcounts
  · exact fun hne => absurd hclosed hne
  · rw [hclosed]
    trivial

/-- A step of the producer, or a wake-up. -/
theorem Accounted.same (hs : Accounted s) (hposted : t.posted = s.posted) (hhad : t.had = s.had)
    (hexecuted : t.executed = s.executed) (hsucceeded : t.succeeded = s.succeeded)
    (hcounts : t.counts = s.counts) (hfiles : t.swappedFiles = s.swappedFiles)
    (hbytes : t.swappedBytes = s.swappedBytes) (hfinishes : t.finishes = s.finishes) :
    Accounted t := by
  have hworth : t.worth = s.worth := by rw [State.worth, hsucceeded, ← State.worth]
  obtain ⟨hjobs, hsub, hcounted, hmoved, htotalled⟩ := hs
  refine { jobs := ?_, succeeded := ?_, counted := ?_, moved := ?_, totalled := ?_ }
  · rw [hposted, hhad]
    exact hjobs
  · rw [hsucceeded, hexecuted]
    exact hsub
  · rw [hfinishes, hcounts, hworth]
    exact hcounted
  · rw [hfinishes, hfiles, hbytes]
    exact hmoved
  · rw [hfinishes, hworth]
    exact htotalled

theorem Accounted.push {job : Job} (hs : Accounted s) : Accounted (s.push job) := by
  obtain ⟨hjobs, hsub, hcounted, hmoved, htotalled⟩ := hs
  have hpushed : ((s.posted ++ [job] : List Job) : Multiset Job) =
      s.executed + s.held + ((s.jobs ++ [job] : List Job) : Multiset Job) := by
    rw [← Multiset.coe_add, ← Multiset.coe_add, ← add_assoc, hjobs]
    rfl
  unfold State.push
  split
  · dsimp only
    split
    · exact ⟨hpushed, hsub, hcounted, hmoved, htotalled⟩
    · exact ⟨hpushed, hsub, hcounted, hmoved, htotalled⟩
  · exact ⟨hjobs, hsub, hcounted, hmoved, htotalled⟩

/-- A consumer takes or lets go of a job, and goes on. -/
theorem Accounted.goto {u : State} (hs : Accounted s) (hopen : s.finishes = [])
    (hat : s.workers[worker]? = some pc) (hworkers : u.workers = s.workers)
    (hposted : u.posted = s.posted) (hfinishes : u.finishes = s.finishes)
    (hsucceeded : u.succeeded.Sublist u.executed) (hhad : u.had + pc'.held = s.had + pc.held)
    (hcounts : u.counts + pc'.owed + s.worth = s.counts + pc.owed + u.worth) :
    Accounted (u.goto worker pc') := by
  have hat' : u.workers[worker]? = some pc := hworkers ▸ hat
  have hhad' := (had_goto pc' hat').trans hhad
  have hcounts' := counts_goto pc' hat'
  refine hs.move hopen hposted (add_right_cancel hhad') hsucceeded ?_ hfinishes
  rw [← hcounts', add_right_comm, add_right_comm s.counts] at hcounts
  exact add_right_cancel hcounts

theorem Accounted.pop (hs : Accounted s) (hopen : s.finishes = [])
    (hat : s.workers[worker]? = some .locking) : Accounted (s.pop worker) := by
  unfold State.pop
  split
  · split
    all_goals exact hs.goto hopen hat rfl rfl rfl hs.succeeded rfl rfl
  · rename_i job jobs hjobs
    have htaken : ({ s with jobs := jobs } : State).had + {job} = s.had + 0 := by
      show s.executed + s.held + jobs + {job} = s.executed + s.held + s.jobs + 0
      rw [hjobs, add_zero, add_assoc, add_comm (jobs : Multiset Job), Multiset.singleton_add]
      rfl
    dsimp only
    split
    all_goals exact hs.goto hopen hat rfl rfl rfl hs.succeeded htaken rfl

theorem executed_had (s : State) (job : Job) (succeeded : List Job) :
    ({ s with executed := s.executed ++ [job], succeeded := succeeded } : State).had =
      s.had + {job} := by
  show ((s.executed ++ [job] : List Job) : Multiset Job) + s.held + s.jobs =
    s.executed + s.held + s.jobs + {job}
  rw [← Multiset.coe_add, Multiset.coe_singleton, add_right_comm _ {job} s.held,
    add_right_comm _ ({job} : Multiset Job)]

/-- The swap left the copy in place. -/
theorem Accounted.kept {job : Job} (hs : Accounted s) (hopen : s.finishes = [])
    (hat : s.workers[worker]? = some (.swapping job)) :
    Accounted ({ s with executed := s.executed ++ [job] }.goto worker .locking) := by
  have hsub : s.succeeded.Sublist (s.executed ++ [job]) :=
    hs.succeeded.trans (List.sublist_append_left _ _)
  refine hs.goto hopen hat rfl rfl rfl hsub ?_ rfl
  rw [executed_had]
  exact add_zero (s.had + {job})

/-- The swap replaced the copy. -/
theorem Accounted.swapped {job : Job} (hs : Accounted s) (hopen : s.finishes = [])
    (hat : s.workers[worker]? = some (.swapping job)) :
    Accounted ({ s with
      executed := s.executed ++ [job]
      succeeded := s.succeeded ++ [job] }.goto worker (.swapped job)) := by
  have hworth : ((s.succeeded ++ [job]).map Job.worth).sum = s.worth + job.worth := by
    rw [List.map_append, List.sum_append, List.map_singleton, List.sum_singleton]
    rfl
  refine hs.goto hopen hat rfl rfl rfl (hs.succeeded.append_right [job]) ?_ ?_
  · rw [executed_had]
    exact add_zero (s.had + {job})
  · show s.counts + job.worth + s.worth = s.counts + 0 + ((s.succeeded ++ [job]).map Job.worth).sum
    rw [hworth, add_zero, add_assoc, add_comm job.worth]

theorem Accounted.addFile {job : Job} (hs : Accounted s) (hopen : s.finishes = [])
    (hat : s.workers[worker]? = some (.swapped job)) :
    Accounted ({ s with swappedFiles := s.swappedFiles + 1 }.goto worker (.counted job)) := by
  have hcounts : ({ s with swappedFiles := s.swappedFiles + 1 } : State).counts + (0, job.size) =
      s.counts + job.worth := by
    show (s.swappedFiles + 1, s.swappedBytes) + s.owed + (0, job.size) =
      (s.swappedFiles, s.swappedBytes) + s.owed + (1, job.size)
    ext
    · simp [add_right_comm]
    · simp [add_right_comm]
  refine hs.goto hopen hat rfl rfl rfl hs.succeeded rfl ?_
  exact congrArg (· + s.worth) hcounts

theorem Accounted.addBytes {job : Job} (hs : Accounted s) (hopen : s.finishes = [])
    (hat : s.workers[worker]? = some (.counted job)) :
    Accounted ({ s with swappedBytes := s.swappedBytes + job.size }.goto worker .locking) := by
  have hcounts : ({ s with swappedBytes := s.swappedBytes + job.size } : State).counts + 0 =
      s.counts + (0, job.size) := by
    show (s.swappedFiles, s.swappedBytes + job.size) + s.owed + 0 =
      (s.swappedFiles, s.swappedBytes) + s.owed + (0, job.size)
    ext
    · simp
    · simp [add_right_comm]
  refine hs.goto hopen hat rfl rfl rfl hs.succeeded rfl ?_
  exact congrArg (· + s.worth) hcounts

/-- `finish` takes the counters once every consumer has ended. -/
theorem Accounted.add {totals : Totals} (hs : Accounted s) (hall : ∀ pc ∈ s.workers, pc = .exited) :
    Accounted { s with
      swappedFiles := 0
      swappedBytes := 0
      producer := .finished
      finishes := s.finishes ++
        [(totals, totals.1 + s.swappedFiles, totals.2 + s.swappedBytes)] } := by
  have howed : s.owed = 0 := by
    apply List.sum_eq_zero
    intro owed howed
    obtain ⟨pc, hpc, rfl⟩ := List.mem_map.mp howed
    rw [hall pc hpc]
    rfl
  refine { jobs := hs.jobs, succeeded := hs.succeeded, counted := ?_, moved := fun _ => ⟨rfl, rfl⟩,
           totalled := ?_ }
  · intro hnone
    cases List.append_eq_nil_iff.mp hnone |>.2
  · show Totalled s.worth (s.finishes ++ _)
    cases hfinishes : s.finishes with
    | nil =>
        have hcounted := hs.counted hfinishes
        rw [State.counts, howed, add_zero] at hcounted
        rw [← hcounted]
        exact ⟨rfl, fun _ hcall => by cases hcall⟩
    | cons first rest =>
        obtain ⟨hfiles, hbytes⟩ := hs.moved (by rw [hfinishes]; exact List.cons_ne_nil _ _)
        obtain ⟨hfirst, hrest⟩ := hfinishes ▸ hs.totalled
        refine ⟨hfirst, fun call hcall => ?_⟩
        rcases List.mem_append.mp hcall with hold | hnew
        · exact hrest call hold
        · obtain rfl := List.mem_singleton.mp hnew
          rw [hfiles, hbytes]
          show (totals.1 + 0, totals.2 + 0) = totals
          rw [add_zero, add_zero]

theorem Accounted.step {e : Event} (hs : Accounted s) (hwatched : Watched s)
    (h : step s e = some t) : Accounted t := by
  cases e with
  | post job =>
      simp only [DedupSwapPool.step] at h
      split at h
      · obtain rfl := Option.some.inj h
        exact hs.same rfl rfl rfl rfl rfl rfl rfl rfl
      · cases h
  | push =>
      simp only [DedupSwapPool.step] at h
      split at h
      · obtain rfl := Option.some.inj h
        exact hs.push
      · cases h
  | notifyPush =>
      simp only [DedupSwapPool.step] at h
      split at h
      · obtain rfl := Option.some.inj h
        exact hs.same rfl (had_notifyAll s) rfl rfl (counts_notifyAll s) rfl rfl rfl
      · cases h
  | finish totals =>
      simp only [DedupSwapPool.step] at h
      split at h
      · obtain rfl := Option.some.inj h
        exact hs.same rfl rfl rfl rfl rfl rfl rfl rfl
      · obtain rfl := Option.some.inj h
        exact hs.same rfl rfl rfl rfl rfl rfl rfl rfl
      · cases h
  | close =>
      simp only [DedupSwapPool.step] at h
      split at h
      · obtain rfl := Option.some.inj h
        exact hs.same rfl rfl rfl rfl rfl rfl rfl rfl
      · cases h
  | notifyClosed =>
      simp only [DedupSwapPool.step] at h
      split at h
      · obtain rfl := Option.some.inj h
        exact hs.same rfl (had_notifyAll s) rfl rfl (counts_notifyAll s) rfl rfl rfl
      · cases h
  | join =>
      simp only [DedupSwapPool.step] at h
      split at h
      · split at h
        · obtain rfl := Option.some.inj h
          exact hs.same rfl rfl rfl rfl rfl rfl rfl rfl
        · cases h
      · cases h
  | add =>
      simp only [DedupSwapPool.step] at h
      split at h
      · rename_i totals hat
        obtain rfl := Option.some.inj h
        exact hs.add (hwatched.reaped (Or.inl ⟨totals, hat⟩))
      · cases h
  | pop worker =>
      simp only [DedupSwapPool.step] at h
      split at h
      · rename_i hat
        obtain rfl := Option.some.inj h
        exact hs.pop (hwatched.unfinished hat (by simp)).1 hat
      · cases h
  | notifyPop worker =>
      simp only [DedupSwapPool.step] at h
      split at h
      · rename_i job hat
        obtain rfl := Option.some.inj h
        have hopen := (hwatched.unfinished hat (by simp)).1
        show Accounted (State.goto { s with producer := s.producer.wake } worker (.swapping job))
        exact hs.goto hopen hat rfl rfl rfl hs.succeeded rfl rfl
      · cases h
  | swap worker result =>
      simp only [DedupSwapPool.step] at h
      split at h
      · rename_i job hat
        have hopen := (hwatched.unfinished hat (by simp)).1
        split at h
        · obtain rfl := Option.some.inj h
          exact hs.swapped hopen hat
        · obtain rfl := Option.some.inj h
          exact hs.kept hopen hat
        · obtain rfl := Option.some.inj h
          exact hs.kept hopen hat
      · cases h
  | addFile worker =>
      simp only [DedupSwapPool.step] at h
      split at h
      · rename_i job hat
        obtain rfl := Option.some.inj h
        have hopen := (hwatched.unfinished hat (by simp)).1
        exact hs.addFile hopen hat
      · cases h
  | addBytes worker =>
      simp only [DedupSwapPool.step] at h
      split at h
      · rename_i job hat
        obtain rfl := Option.some.inj h
        have hopen := (hwatched.unfinished hat (by simp)).1
        exact hs.addBytes hopen hat
      · cases h
  | spurious worker =>
      simp only [DedupSwapPool.step] at h
      split at h
      · rename_i hat
        obtain rfl := Option.some.inj h
        have hopen := (hwatched.unfinished hat (by simp)).1
        exact hs.goto hopen hat rfl rfl rfl hs.succeeded rfl rfl
      · cases h
  | spuriousPop =>
      simp only [DedupSwapPool.step] at h
      split at h
      · obtain rfl := Option.some.inj h
        exact hs.same rfl rfl rfl rfl rfl rfl rfl rfl
      · cases h

theorem length_step {e : Event} (h : step s e = some t) : t.workers.length = s.workers.length := by
  cases e <;> simp only [step] at h <;>
    grind [State.push, State.pop, State.goto, State.notifyAll]

end Moves

/-! ## Runs -/

section Runs

variable {threads : Nat}

structure Inv (threads : Nat) (s : State) : Prop where
  size : s.workers.length = threads
  watched : Watched s
  accounted : Accounted s

theorem inv_initial (threads : Nat) : Inv threads (initial threads) := by
  have hlocking : ∀ pc ∈ (initial threads).workers, pc = .locking := fun _ hpc =>
    List.eq_of_mem_replicate hpc
  have hheld : (initial threads).held = 0 := by
    apply List.sum_eq_zero
    intro held hheld
    obtain ⟨pc, hpc, rfl⟩ := List.mem_map.mp hheld
    rw [hlocking pc hpc]
    rfl
  have howed : (initial threads).owed = 0 := by
    apply List.sum_eq_zero
    intro owed howed
    obtain ⟨pc, hpc, rfl⟩ := List.mem_map.mp howed
    rw [hlocking pc hpc]
    rfl
  refine { size := List.length_replicate, watched := ?_, accounted := ?_ }
  · have hnone : ∀ pc, pc ≠ .locking → pc ∉ (initial threads).workers := fun pc hne hpc =>
      hne (hlocking pc hpc)
    constructor <;> grind [initial, Producer.isReaping]
  · refine { jobs := ?_, succeeded := .refl _, counted := fun _ => ?_, moved := fun h => absurd rfl h,
             totalled := trivial }
    · rw [State.had, hheld]
      rfl
    · rw [State.counts, howed]
      rfl

theorem inv_of_reachable (h : (system threads).Reachable s) : Inv threads s := by
  refine h.invariant ?_ ?_
  · rintro _ rfl
    exact inv_initial threads
  · intro s e t hs hstep
    exact ⟨(length_step hstep).trans hs.size, hs.watched.step hstep,
      hs.accounted.step hs.watched hstep⟩

/-- Every posted job has been executed, and the first call of `finish` has added the
replaced copies, their number and their bytes, to the totals it was given; later calls
add nothing. -/
def Settled (s : State) : Prop :=
  s.executed.Perm s.posted ∧ s.succeeded.Sublist s.executed ∧
    ∃ totals again,
      s.finishes = (totals, totals + (.ofNat s.succeeded.length, (s.succeeded.map Job.size).sum)) ::
        again ∧
      ∀ call ∈ again, call.2 = call.1

theorem worth_eq (s : State) :
    s.worth = (.ofNat s.succeeded.length, (s.succeeded.map Job.size).sum) := by
  have hsum : ∀ jobs : List Job,
      (jobs.map Job.worth).sum = (UInt64.ofNat jobs.length, (jobs.map Job.size).sum) := by
    intro jobs
    induction jobs with
    | nil => rfl
    | cons job jobs ih =>
        rw [List.map_cons, List.sum_cons, ih, List.map_cons, List.sum_cons, List.length_cons,
          UInt64.ofNat_add]
        show (1 + UInt64.ofNat jobs.length, _) = _
        rw [add_comm]
        rfl
  exact hsum s.succeeded

theorem Inv.settled (hs : Inv threads s) (hthreads : 0 < threads) (hat : s.producer = .finished) :
    Settled s := by
  have hfinishes := hs.watched.returned hat
  have hall := hs.watched.reaped (Or.inr hfinishes)
  have hfirst : s.workers[0]? = some .exited := by
    have hlt : 0 < s.workers.length := hs.size ▸ hthreads
    rw [List.getElem?_eq_getElem hlt, hall _ (List.getElem_mem hlt)]
  have hjobs := (hs.watched.exited (List.mem_of_getElem? hfirst)).2
  have hheld : s.held = 0 := by
    apply List.sum_eq_zero
    intro held hheld
    obtain ⟨pc, hpc, rfl⟩ := List.mem_map.mp hheld
    rw [hall pc hpc]
    rfl
  have hposted := hs.accounted.jobs
  rw [State.had, hheld, hjobs, add_zero, Multiset.coe_nil, add_zero] at hposted
  refine ⟨Multiset.coe_eq_coe.mp hposted.symm, hs.accounted.succeeded, ?_⟩
  have htotalled := hs.accounted.totalled
  rw [worth_eq] at htotalled
  cases hcalls : s.finishes with
  | nil => exact absurd hcalls hfinishes
  | cons first again =>
      obtain ⟨totals, totals'⟩ := first
      rw [hcalls] at htotalled
      obtain ⟨hgrown, hagain⟩ := htotalled
      rw [hgrown]
      exact ⟨totals, again, rfl, hagain⟩

/-- A consumer that neither waits nor has ended can go on. -/
theorem awake_step (hat : s.workers[worker]? = some pc) (hwait : pc ≠ .waiting)
    (hexit : pc ≠ .exited) : ∃ e t, step s e = some t ∧ e.isSpurious = false := by
  cases pc with
  | locking => exact ⟨.pop worker, _, by simp only [step, hat]; rfl, rfl⟩
  | waiting => exact absurd rfl hwait
  | notifyPop job => exact ⟨.notifyPop worker, _, by simp only [step, hat]; rfl, rfl⟩
  | swapping job => exact ⟨.swap worker none, _, by simp only [step, hat]; rfl, rfl⟩
  | swapped job => exact ⟨.addFile worker, _, by simp only [step, hat]; rfl, rfl⟩
  | counted job => exact ⟨.addBytes worker, _, by simp only [step, hat]; rfl, rfl⟩
  | exited => exact absurd rfl hexit

/-- A call of `post` or `finish` that has not returned does not hang. -/
theorem Inv.progress (hs : Inv threads s) (hthreads : 0 < threads) (hidle : s.producer ≠ .idle)
    (hfinished : s.producer ≠ .finished) : ∃ e t, step s e = some t ∧ e.isSpurious = false := by
  cases hat : s.producer with
  | idle => exact absurd hat hidle
  | pushing job => exact ⟨.push, _, by simp only [step, hat]; rfl, rfl⟩
  | waiting job =>
      rcases hs.watched.room job hat with hfull | ⟨job', hnotify⟩
      · have hjobs : s.jobs ≠ [] := by
          intro hnil
          rw [hnil] at hfull
          cases hfull
        have hlt : 0 < s.workers.length := hs.size ▸ hthreads
        have hfirst := List.getElem_mem hlt
        refine awake_step (List.getElem?_eq_getElem hlt) ?_ ?_
        · intro hwait
          have hpush := hs.watched.heard (hwait ▸ hfirst) hjobs
          rw [hat] at hpush
          cases hpush
        · exact fun hexit => hjobs (hs.watched.exited (hexit ▸ hfirst)).2
      · obtain ⟨worker, hworker⟩ := List.mem_iff_getElem?.mp hnotify
        exact awake_step hworker (by simp) (by simp)
  | notifyPush => exact ⟨.notifyPush, _, by simp only [step, hat]; rfl, rfl⟩
  | closing totals => exact ⟨.close, _, by simp only [step, hat]; rfl, rfl⟩
  | notifyClosed totals => exact ⟨.notifyClosed, _, by simp only [step, hat]; rfl, rfl⟩
  | joining totals =>
      have hclosed : s.closed = true := hs.watched.reaping (by rw [hat]; rfl)
      by_cases hall : s.workers.all (· == .exited) = true
      · exact ⟨.join, _, by simp only [step, hat, hall, if_true]; rfl, rfl⟩
      · simp only [List.all_eq_true, beq_iff_eq, not_forall] at hall
        obtain ⟨pc, hpc, hexit⟩ := hall
        obtain ⟨worker, hworker⟩ := List.mem_iff_getElem?.mp hpc
        refine awake_step hworker ?_ hexit
        rintro rfl
        obtain ⟨totals, hnotify⟩ := hs.watched.told hpc hclosed
        rw [hat] at hnotify
        cases hnotify
  | adding totals => exact ⟨.add, _, by simp only [step, hat]; rfl, rfl⟩
  | finished => exact absurd hat hfinished

/-- When `finish` returns, every posted job has been executed once and the totals have
grown by the copies replaced, however often it is called; the producer does not wait
beside room in the queue, nor a consumer beside a job, unless the thread that is to wake
it is about to; and no call hangs. -/
theorem posted_jobs_swapped_once (hthreads : 0 < threads) (h : (system threads).Reachable s) :
    (s.producer = .finished → Settled s) ∧
      (∀ job, s.producer = .waiting job → s.jobs.length < maxQueued →
        ∃ (worker : Nat) (job' : Job), s.workers[worker]? = some (.notifyPop job')) ∧
      (∀ worker : Nat, s.workers[worker]? = some .waiting → s.jobs ≠ [] →
        s.producer = .notifyPush) ∧
      (s.producer ≠ .idle → s.producer ≠ .finished →
        ∃ e t, step s e = some t ∧ e.isSpurious = false) := by
  have hs := inv_of_reachable h
  refine ⟨hs.settled hthreads, fun job hwait hroom => ?_, fun worker hwait hjobs => ?_,
    hs.progress hthreads⟩
  · rcases hs.watched.room job hwait with hfull | ⟨job', hjob'⟩
    · omega
    · obtain ⟨worker, hworker⟩ := List.mem_iff_getElem?.mp hjob'
      exact ⟨worker, job', hworker⟩
  · exact hs.watched.heard (List.mem_of_getElem? hwait) hjobs

namespace Example

def first : Job := ⟨"a", "k", 3⟩

def second : Job := ⟨"b", "k", 5⟩

/-- Two consumers and two jobs, one of which is not replaced; `finish` is called twice. -/
def events : List Event :=
  [.pop 0, .post first, .push, .notifyPush, .post second, .push, .notifyPush, .pop 1, .pop 0,
    .swap 0 (some true), .swap 1 none, .addFile 0, .finish (7, 7), .addBytes 0, .close,
    .notifyClosed, .pop 0, .pop 1, .join, .add, .finish (8, 10), .close, .notifyClosed, .join, .add]

def last : State where
  workers := [.exited, .exited]
  producer := .finished
  jobs := []
  closed := true
  swappedFiles := 0
  swappedBytes := 0
  posted := [first, second]
  executed := [second, first]
  succeeded := [second]
  finishes := [((7, 7), (8, 12)), ((8, 10), (8, 10))]

end Example

theorem posted_jobs_swapped_once_example :
    (system 2).Reachable Example.last ∧ Settled Example.last := by
  have hstart : (system 2).Reachable (initial 2) := .of_init rfl
  have hend : (system 2).Reachable Example.last :=
    hstart.of_steps Example.events (by decide +kernel)
  exact ⟨hend, (posted_jobs_swapped_once (by decide) hend).1 rfl⟩

end Runs

end DedupSwapPool
end Store
end Archinix
