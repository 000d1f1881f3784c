import Archinix.Util.ThreadPool

/-!
# The invariant of the thread pool

What each thread may rely on where it is, what the flags and counters say about the
items, and that every step keeps this.
-/

namespace Archinix
namespace Util
namespace ThreadPool

open Foundation

variable {ε : Type}

/-! ## What holds between the critical sections -/

/-- Every worker has ended. -/
def AllExited (s : State ε) : Prop := ∀ thread pc, thread ≠ 0 → s.thread? thread = some pc → pc = .exited

/-- The calling thread has still to notify all. -/
def Notifying (s : State ε) : Prop := ∃ rethrow workers, s.thread? 0 = some (.notifying rethrow workers)

/-- The destructor has set `quit`. -/
def Destroying (s : State ε) : Prop :=
  (∃ workers, s.thread? 0 = some (.notifying none workers) ∨ s.thread? 0 = some (.joining none workers)) ∨
    s.thread? 0 = some .destroyed

/-- What a thread may rely on where it is. -/
def Place (s : State ε) (thread : Nat) : Pc ε → Prop
  | .calling => thread = 0
  | .top ran => (thread = 0 → s.draining = true) ∧ ∀ e, ran = some (some e) → e ∈ s.thrown
  | .waiting => (thread = 0 → s.draining = true) ∧ (s.quit = true → Notifying s)
  | .woken => thread = 0 → s.draining = true
  | .running _ => thread = 0 → s.draining = true
  | .exited => thread ≠ 0 ∧ s.quit = true
  | .checking => thread = 0 ∧ s.quit = true
  | .shutdown rethrow => thread = 0 ∧ ∀ e, rethrow = some e → s.exception = some e
  | .notifying rethrow workers =>
      thread = 0 ∧ s.quit = true ∧ (s.workers = 0 ∧ workers + 1 = s.threads.length) ∧
        ∀ e, rethrow = some e → s.exception = some e
  | .joining rethrow workers =>
      thread = 0 ∧ s.quit = true ∧ (s.workers = 0 ∧ workers + 1 = s.threads.length) ∧
        ∀ e, rethrow = some e → s.exception = some e
  | .returned => thread = 0 ∧ s.quit = true ∧ s.exception = none
  | .rethrown e => thread = 0 ∧ s.exception = some e ∧ AllExited s
  | .destroyed => thread = 0 ∧ s.quit = true ∧ AllExited s

/-- The invariant of the pool. -/
structure Inv (s : State ε) : Prop where
  /-- Items start in the order in which they were enqueued. -/
  queue : s.started ++ s.pending = List.range s.enqueued
  /-- An item that has started runs in one thread, or has finished. -/
  ran : ∀ item, s.finished.count item + s.threads.countP (Pc.isRunning item) = s.started.count item
  active : s.active = s.threads.countP Pc.isActive
  place : ∀ thread pc, s.thread? thread = some pc → Place s thread pc
  /-- What has been thrown before the first exception is recorded is still to be accounted for. -/
  raised : s.exception = none → ∀ e ∈ s.thrown, ∃ thread, s.thread? thread = some (.top (some (some e)))
  recorded : ∀ e, s.exception = some e → e ∈ s.thrown ∧ s.quit = true
  /-- Without an exception, `quit` is set when nothing is left, or by the destructor. -/
  drained : s.quit = true → s.exception = none → (s.active = 0 ∧ s.pending = []) ∨ Destroying s
  handles : s.workers + 1 = s.threads.length ∨ (s.workers = 0 ∧ s.quit = true ∧
    (AllExited s ∨ ∃ rethrow workers, s.thread? 0 = some (.notifying rethrow workers) ∨
      s.thread? 0 = some (.joining rethrow workers)))

section Moves

variable {s : State ε} {thread : Nat} {pc pc' : Pc ε}

theorem thread?_goto (h : s.thread? thread = some pc) (other : Nat) :
    (s.goto thread pc').thread? other = if other = thread then some pc' else s.thread? other := by
  obtain ⟨hlt, -⟩ := List.getElem?_eq_some_iff.mp h
  by_cases heq : other = thread
  · subst heq
    simp [State.thread?, State.goto, hlt]
  · simp [State.thread?, State.goto, heq, Ne.symm heq]

/-- A move of one thread changes a count by that thread. -/
theorem countP_goto (pc' : Pc ε) (p : Pc ε → Bool) (h : s.thread? thread = some pc) :
    (s.goto thread pc').threads.countP p + (p pc).toNat =
      s.threads.countP p + (p pc').toNat := by
  obtain ⟨hlt, hget⟩ := List.getElem?_eq_some_iff.mp h
  have hpos : (p pc).toNat ≤ s.threads.countP p := by
    cases hp : p pc with
    | false => simp
    | true => exact List.countP_pos_iff.mpr ⟨pc, hget ▸ List.getElem_mem hlt, hp⟩
  show (s.threads.set thread pc').countP p + _ = _
  rw [List.countP_set hlt, hget]
  cases hp : p pc <;> cases hp' : p pc' <;> simp_all

theorem thread?_notifyAll (s : State ε) (other : Nat) :
    s.notifyAll.thread? other = (s.thread? other).map Pc.wake := by
  simp [State.thread?, State.notifyAll]

/-- Waking the waiting threads changes no count that leaves them out. -/
theorem countP_notifyAll {p : Pc ε → Bool} (hp : p .waiting = p .woken) :
    s.notifyAll.threads.countP p = s.threads.countP p := by
  show (s.threads.map Pc.wake).countP p = _
  rw [List.countP_map]
  congr 1
  funext pc
  cases pc <;> simp [Pc.wake, hp]

/-- A step that leaves one thread in place: the flags only rise, an exception stays, and
who waits is not left behind by `quit`. -/
structure Frame (s s' : State ε) : Prop where
  draining : s.draining = true → s'.draining = true
  thrown : ∀ e ∈ s.thrown, e ∈ s'.thrown
  quit : s.quit = true → s'.quit = true
  exception : ∀ e, s.exception = some e → s'.exception = some e
  returned : s.thread? 0 = some .returned → s.exception = none → s'.exception = none
  sleeping : (∃ thread, s.thread? thread = some .waiting) → (s.quit = true → Notifying s) →
    s'.quit = true → Notifying s'
  exited : AllExited s → s.quit = true → AllExited s'
  length : s.quit = true → s'.threads.length = s.threads.length
  workers : s.quit = true → s.workers = 0 → s'.workers = 0

theorem Place.frame {s s' : State ε} (hinv : Inv s) (h : Frame s s')
    (hat : s.thread? thread = some pc) : Place s' thread pc := by
  have hplace := hinv.place thread pc hat
  cases pc with
  | calling => exact hplace
  | top ran => exact ⟨fun h0 => h.draining (hplace.1 h0), fun e he => h.thrown e (hplace.2 e he)⟩
  | waiting => exact ⟨fun h0 => h.draining (hplace.1 h0), h.sleeping ⟨thread, hat⟩ hplace.2⟩
  | woken => exact fun h0 => h.draining (hplace h0)
  | running item => exact fun h0 => h.draining (hplace h0)
  | exited => exact ⟨hplace.1, h.quit hplace.2⟩
  | checking => exact ⟨hplace.1, h.quit hplace.2⟩
  | shutdown rethrow => exact ⟨hplace.1, fun e he => h.exception e (hplace.2 e he)⟩
  | notifying rethrow workers =>
      obtain ⟨h0, hquit, ⟨hworkers, hlength⟩, hexc⟩ := hplace
      exact ⟨h0, h.quit hquit, ⟨h.workers hquit hworkers, (h.length hquit).symm ▸ hlength⟩,
        fun e he => h.exception e (hexc e he)⟩
  | joining rethrow workers =>
      obtain ⟨h0, hquit, ⟨hworkers, hlength⟩, hexc⟩ := hplace
      exact ⟨h0, h.quit hquit, ⟨h.workers hquit hworkers, (h.length hquit).symm ▸ hlength⟩,
        fun e he => h.exception e (hexc e he)⟩
  | returned =>
      obtain ⟨rfl, hquit, hexc⟩ := hplace
      exact ⟨rfl, h.quit hquit, h.returned hat hexc⟩
  | rethrown e =>
      obtain ⟨h0, hexc, hexited⟩ := hplace
      exact ⟨h0, h.exception e hexc, h.exited hexited (hinv.recorded e hexc).2⟩
  | destroyed =>
      obtain ⟨h0, hquit, hexited⟩ := hplace
      exact ⟨h0, h.quit hquit, h.exited hexited hquit⟩

theorem AllExited.goto (h : AllExited s) (hat : s.thread? thread = some pc) (hpc : pc ≠ .exited) :
    AllExited (s.goto thread pc') := by
  intro other q hother hq
  rw [thread?_goto hat] at hq
  split at hq
  · rename_i heq
    exact absurd (h thread pc (heq ▸ hother) hat) hpc
  · exact h other q hother hq

theorem thread?_zero_goto {q : Pc ε} (hat : s.thread? thread = some pc) (hpc : pc.isReaping = false)
    (hq : q.isReaping = true) (h0 : s.thread? 0 = some q) :
    (s.goto thread pc').thread? 0 = some q := by
  rw [thread?_goto hat]
  split
  · rename_i heq
    rw [heq, hat] at h0
    obtain rfl := Option.some.inj h0
    simp [hpc] at hq
  · exact h0

theorem Notifying.goto (h : Notifying s) (hat : s.thread? thread = some pc)
    (hpc : pc.isReaping = false) : Notifying (s.goto thread pc') := by
  obtain ⟨rethrow, workers, h0⟩ := h
  exact ⟨rethrow, workers, thread?_zero_goto hat hpc rfl h0⟩

theorem Destroying.goto (h : Destroying s) (hat : s.thread? thread = some pc)
    (hpc : pc.isReaping = false) : Destroying (s.goto thread pc') := by
  obtain ⟨workers, h0 | h0⟩ | h0 := h
  · exact Or.inl ⟨workers, Or.inl (thread?_zero_goto hat hpc rfl h0)⟩
  · exact Or.inl ⟨workers, Or.inr (thread?_zero_goto hat hpc rfl h0)⟩
  · exact Or.inr (thread?_zero_goto hat hpc rfl h0)

/-- Where the threads are after a move of one of them, in a state with those threads. -/
theorem Inv.place_goto {s' : State ε} (hs : Inv s) (hframe : Frame s s')
    (hthreads : s'.threads = (s.goto thread pc').threads) (hat : s.thread? thread = some pc)
    (hplace : Place s' thread pc') : ∀ other q, s'.thread? other = some q → Place s' other q := by
  intro other q hq
  rw [State.thread?, hthreads, ← State.thread?, thread?_goto hat] at hq
  split at hq
  · rename_i heq
    obtain rfl := Option.some.inj hq
    rw [heq]
    exact hplace
  · exact Place.frame hs hframe hq

/-- What has been thrown is still to be accounted for after the move of another thread. -/
theorem raised_goto {e : ε} (hat : s.thread? thread = some pc) (hpc : pc ≠ .top (some (some e)))
    (h : ∃ other, s.thread? other = some (.top (some (some e)))) :
    ∃ other, (s.goto thread pc').thread? other = some (.top (some (some e))) := by
  obtain ⟨other, hother⟩ := h
  refine ⟨other, ?_⟩
  rw [thread?_goto hat, if_neg]
  · exact hother
  · intro heq
    rw [heq, hat] at hother
    exact hpc (Option.some.inj hother)

theorem handles_goto (hs : Inv s) (hat : s.thread? thread = some pc) (hpc : pc.isReaping = false)
    (hstays : pc ≠ .exited) :
    s.workers + 1 = (s.goto thread pc').threads.length ∨ (s.workers = 0 ∧ s.quit = true ∧
      (AllExited (s.goto thread pc') ∨ ∃ rethrow workers,
        (s.goto thread pc').thread? 0 = some (.notifying rethrow workers) ∨
        (s.goto thread pc').thread? 0 = some (.joining rethrow workers))) := by
  rcases hs.handles with hw | ⟨hw, hquit, hall | ⟨rethrow, workers, h0⟩⟩
  · exact Or.inl (by simpa [State.goto] using hw)
  · exact Or.inr ⟨hw, hquit, Or.inl (hall.goto hat hstays)⟩
  · exact Or.inr ⟨hw, hquit, Or.inr ⟨rethrow, workers,
      h0.imp (thread?_zero_goto hat hpc rfl) (thread?_zero_goto hat hpc rfl)⟩⟩

/-- A thread moves, without the lock having been taken for more than that. -/
structure QuietMove (s : State ε) (thread : Nat) (pc pc' : Pc ε) : Prop where
  hat : s.thread? thread = some pc
  before : pc.isActive = false
  after : pc'.isActive = false
  stays : pc ≠ .exited
  reaping : pc.isReaping = false
  place : Place (s.goto thread pc') thread pc'

theorem isRunning_of_inactive {q : Pc ε} (h : q.isActive = false) (item : Nat) :
    q.isRunning item = false := by
  cases q <;> simp_all [Pc.isActive, Pc.isRunning]

theorem QuietMove.countP {s : State ε} (h : QuietMove s thread pc pc') :
    (s.goto thread pc').threads.countP Pc.isActive = s.threads.countP Pc.isActive ∧
      ∀ item, (s.goto thread pc').threads.countP (Pc.isRunning item) =
        s.threads.countP (Pc.isRunning item) := by
  refine ⟨?_, fun item => ?_⟩
  · have := countP_goto pc' Pc.isActive h.hat
    simpa [h.before, h.after] using this
  · have := countP_goto pc' (Pc.isRunning item) h.hat
    simpa [isRunning_of_inactive h.before, isRunning_of_inactive h.after] using this

theorem Inv.quietMove (hs : Inv s) (h : QuietMove s thread pc pc') : Inv (s.goto thread pc') := by
  have hframe : Frame s (s.goto thread pc') :=
    { draining := id
      thrown := fun _ he => he
      quit := id
      exception := fun _ he => he
      returned := fun _ he => he
      sleeping := fun _ hnotify hquit => (hnotify hquit).goto h.hat h.reaping
      exited := fun hexited _ => hexited.goto h.hat h.stays
      length := fun _ => by simp [State.goto]
      workers := fun _ hw => hw }
  refine { queue := hs.queue, ran := ?_, active := ?_, recorded := hs.recorded,
           place := hs.place_goto hframe rfl h.hat h.place, raised := ?_, drained := ?_,
           handles := handles_goto hs h.hat h.reaping h.stays }
  · intro item
    rw [h.countP.2 item]
    exact hs.ran item
  · rw [h.countP.1]
    exact hs.active
  · intro hexc e he
    refine raised_goto h.hat (fun hpc => ?_) (hs.raised hexc e he)
    have hbefore := h.before
    rw [hpc] at hbefore
    cases hbefore
  · intro hquit hexc
    exact (hs.drained hquit hexc).imp id fun hd => hd.goto h.hat h.reaping

theorem Inv.notifyAll (hs : Inv s) : Inv s.notifyAll := by
  have hsame : ∀ {other : Nat} {q : Pc ε}, q ≠ .waiting → s.thread? other = some q →
      s.notifyAll.thread? other = some q := by
    intro other q hq h
    rw [thread?_notifyAll, h]
    cases q <;> first | rfl | exact absurd rfl hq
  have hback : ∀ {other : Nat} {q : Pc ε}, s.notifyAll.thread? other = some q →
      s.thread? other = some q ∨ (q = .woken ∧ s.thread? other = some .waiting) := by
    intro other q h
    rw [thread?_notifyAll] at h
    obtain ⟨r, hr, rfl⟩ := Option.map_eq_some_iff.mp h
    cases r <;> first | exact Or.inl hr | exact Or.inr ⟨rfl, hr⟩
  have hexited : AllExited s → AllExited s.notifyAll := by
    intro hall other q hother hq
    rcases hback hq with h | ⟨-, h⟩
    · exact hall other q hother h
    · exact absurd (hall other _ hother h) (by simp)
  have hframe : Frame s s.notifyAll :=
    { draining := id
      thrown := fun _ he => he
      quit := id
      exception := fun _ he => he
      returned := fun _ he => he
      sleeping := fun _ hnotify hquit =>
        let ⟨rethrow, workers, h0⟩ := hnotify hquit
        ⟨rethrow, workers, hsame (by simp) h0⟩
      exited := fun hall _ => hexited hall
      length := fun _ => by simp [State.notifyAll]
      workers := fun _ hw => hw }
  refine { queue := hs.queue, ran := ?_, active := ?_, place := ?_, raised := ?_, recorded := hs.recorded,
           drained := ?_, handles := ?_ }
  · intro item
    rw [countP_notifyAll rfl]
    exact hs.ran item
  · rw [countP_notifyAll rfl]
    exact hs.active
  · intro other q hq
    rcases hback hq with h | ⟨rfl, h⟩
    · exact Place.frame hs hframe h
    · exact (hs.place other _ h).1
  · intro hexc e he
    obtain ⟨other, hother⟩ := hs.raised hexc e he
    exact ⟨other, hsame (by simp) hother⟩
  · intro hquit hexc
    refine (hs.drained hquit hexc).imp id fun hd => ?_
    obtain ⟨workers, h0 | h0⟩ | h0 := hd
    · exact Or.inl ⟨workers, Or.inl (hsame (by simp) h0)⟩
    · exact Or.inl ⟨workers, Or.inr (hsame (by simp) h0)⟩
    · exact Or.inr (hsame (by simp) h0)
  · refine hs.handles.imp (fun hw => by simpa [State.notifyAll] using hw) fun ⟨hw, hquit, hall⟩ => ?_
    exact ⟨hw, hquit, hall.imp hexited fun ⟨rethrow, workers, h0⟩ => ⟨rethrow, workers,
      h0.imp (hsame (by simp)) (hsame (by simp))⟩⟩

/-- After `notify_all` nobody waits. -/
theorem not_waiting_notifyAll (s : State ε) (other : Nat) :
    s.notifyAll.thread? other ≠ some .waiting := by
  rw [thread?_notifyAll]
  intro h
  obtain ⟨q, -, hq⟩ := Option.map_eq_some_iff.mp h
  cases q <;> cases hq

/-- A thread that has run an item brings the accounts up to date. -/
theorem Inv.settle (hs : Inv s) {exc : Option ε} (hat : s.thread? thread = some (.top (some exc)))
    {x : Option ε} {q : Bool}
    (h : (x = s.exception ∧ q = s.quit ∧ (exc = none ∨ ∃ e, s.exception = some e)) ∨
      (∃ e, exc = some e ∧ s.exception = none ∧ x = some e ∧ q = true ∧
        ∀ other, s.thread? other ≠ some .waiting)) :
    Inv ({ s with active := s.active - 1, exception := x, quit := q }.goto thread .woken) := by
  have hcount := countP_goto .woken Pc.isActive hat
  have hactive := hs.active
  have hmono : s.quit = true → q = true := by
    intro hquit
    rcases h with ⟨-, rfl, -⟩ | ⟨-, -, -, -, rfl, -⟩
    · exact hquit
    · rfl
  simp only [Pc.isActive, Bool.toNat_true, Bool.toNat_false, Nat.add_zero] at hcount
  have hframe : Frame s ({ s with active := s.active - 1, exception := x, quit := q }.goto thread .woken) := by
    refine { draining := id, thrown := fun _ he => he, quit := hmono, exception := ?_, returned := ?_,
             sleeping := ?_, exited := ?_, length := ?_, workers := fun _ hw => hw }
    · intro e he
      rcases h with ⟨rfl, -, -⟩ | ⟨-, -, hnone, -⟩
      · exact he
      · rw [hnone] at he
        cases he
    · intro h0 hnone
      rcases h with ⟨rfl, -, -⟩ | -
      · exact hnone
      -- an exception cannot be recorded late: nothing was active when `process()` returned
      · rcases hs.drained (hs.place 0 _ h0).2.1 hnone with ⟨hzero, -⟩ | ⟨_, hd | hd⟩ | hd
        · omega
        all_goals
          rw [h0] at hd
          cases hd
    · intro ⟨other, hother⟩ hnotify hquit
      rcases h with ⟨-, rfl, -⟩ | ⟨_, -, -, -, -, hwait⟩
      · exact (hnotify hquit).goto hat rfl
      · exact absurd hother (hwait other)
    · exact fun hall _ => hall.goto hat (by simp)
    · exact fun _ => by simp [State.goto]
  refine { queue := hs.queue, ran := ?_, active := ?_, raised := ?_, recorded := ?_, drained := ?_,
           place := hs.place_goto hframe rfl hat (hs.place thread _ hat).1, handles := ?_ }
  · intro item
    have hrun := countP_goto .woken (Pc.isRunning item) hat
    simp only [Pc.isRunning, Bool.toNat_false, Nat.add_zero] at hrun
    show _ + (s.goto thread .woken).threads.countP _ = _
    rw [hrun]
    exact hs.ran item
  · show s.active - 1 = (s.goto thread .woken).threads.countP Pc.isActive
    omega
  · intro hnone e he
    have hnone' : x = none := hnone
    rcases h with ⟨rfl, -, hexc⟩ | ⟨_, -, -, rfl, -⟩
    · refine raised_goto (s := s) hat (fun hpc => ?_) (hs.raised hnone' e he)
      rcases hexc with rfl | ⟨_, hsome⟩
      · cases hpc
      · rw [hnone'] at hsome
        cases hsome
    · cases hnone'
  · intro e he
    have he' : x = some e := he
    rcases h with ⟨rfl, rfl, -⟩ | ⟨e', rfl, -, rfl, rfl, -⟩
    · exact hs.recorded e he'
    · obtain rfl := Option.some.inj he'
      exact ⟨(hs.place thread _ hat).2 _ rfl, rfl⟩
  · intro hquit hnone
    have hquit' : q = true := hquit
    have hnone' : x = none := hnone
    rcases h with ⟨rfl, rfl, -⟩ | ⟨_, -, -, rfl, -⟩
    · rcases hs.drained hquit' hnone' with ⟨hzero, hpending⟩ | hd
      · refine Or.inl ⟨?_, hpending⟩
        show s.active - 1 = 0
        omega
      · exact Or.inr (Destroying.goto (s := s) hd hat rfl)
    · cases hnone'
  · exact (handles_goto hs hat rfl (by simp)).imp id fun ⟨hw, hquit, hall⟩ => ⟨hw, hmono hquit, hall⟩

theorem account_length (s : State ε) (ran : Option (Option ε)) :
    (s.account ran).threads.length = s.threads.length := by
  unfold State.account
  split
  · rfl
  · rfl
  · split
    · simp [State.notifyAll]
    · rfl

theorem thread?_account_goto {ran : Option (Option ε)} (hat : s.thread? thread = some (.top ran)) :
    ((s.account ran).goto thread .woken).thread? thread = some .woken := by
  have hlt : thread < (s.account ran).threads.length := by
    rw [account_length]
    exact (List.getElem?_eq_some_iff.mp hat).1
  simp [State.thread?, State.goto, hlt]

/-- `next` does not look at where its own thread is. -/
theorem next_goto (s : State ε) (thread : Nat) :
    (s.goto thread .woken).next thread = s.next thread := by
  unfold State.next
  simp only [State.goto, State.notifyAll, List.set_set, List.map_set]

theorem Inv.account (hs : Inv s) {ran : Option (Option ε)} (hat : s.thread? thread = some (.top ran)) :
    Inv ((s.account ran).goto thread .woken) := by
  cases ran with
  | none => exact hs.quietMove ⟨hat, rfl, rfl, by simp, rfl, (hs.place thread _ hat).1⟩
  | some exc =>
      cases exc with
      | none => exact hs.settle hat (Or.inl ⟨rfl, rfl, Or.inl rfl⟩)
      | some e =>
          cases hexc : s.exception with
          | none =>
              have hat' : s.notifyAll.thread? thread = some (.top (some (some e))) := by
                rw [thread?_notifyAll, hat]
                rfl
              have hsettle := hs.notifyAll.settle (x := some e) (q := true) hat'
                (Or.inr ⟨e, rfl, hexc, rfl, rfl, not_waiting_notifyAll s⟩)
              simp only [State.account, hexc]
              exact hsettle
          | some e' =>
              have hsettle := hs.settle (x := s.exception) (q := s.quit) hat
                (Or.inl ⟨rfl, rfl, Or.inr ⟨e', hexc⟩⟩)
              simpa [State.account, hexc] using hsettle

/-- A thread holding the lock takes the next item. -/
theorem Inv.take (hs : Inv s) (hat : s.thread? thread = some .woken) (hquit : s.quit = false)
    {item : Nat} {pending : List Nat} (hpending : s.pending = item :: pending) :
    Inv ({ s with
      pending := pending
      active := s.active + 1
      started := s.started ++ [item] }.goto thread (.running item)) := by
  have hframe : Frame s ({ s with
      pending := pending
      active := s.active + 1
      started := s.started ++ [item] }.goto thread (.running item)) :=
    { draining := id
      thrown := fun _ he => he
      quit := id
      exception := fun _ he => he
      returned := fun _ he => he
      sleeping := fun _ hnotify hq => Notifying.goto (s := s) (hnotify hq) hat rfl
      exited := fun hall _ => AllExited.goto (s := s) hall hat (by simp)
      length := fun _ => by simp [State.goto]
      workers := fun _ hw => hw }
  refine { queue := ?_, ran := ?_, active := ?_, raised := ?_, recorded := hs.recorded, drained := ?_,
           place := hs.place_goto hframe rfl hat (hs.place thread _ hat),
           handles := handles_goto hs hat rfl (by simp) }
  · have hqueue := hs.queue
    rw [hpending] at hqueue
    show (s.started ++ [item]) ++ pending = _
    rw [List.append_assoc]
    exact hqueue
  · intro other
    have hrun := countP_goto (.running item) (Pc.isRunning other) hat
    have hran := hs.ran other
    show s.finished.count other + (s.goto thread (.running item)).threads.countP _ =
      (s.started ++ [item]).count other
    simp only [Pc.isRunning, Bool.toNat_false, Nat.add_zero] at hrun
    rw [List.count_append, List.count_singleton]
    cases hsame : item == other <;> simp only [hsame, Bool.toNat_true, Bool.toNat_false] at hrun ⊢ <;>
      simp <;> omega
  · have hcount := countP_goto (.running item) Pc.isActive hat
    have hactive := hs.active
    simp only [Pc.isActive, Bool.toNat_true, Bool.toNat_false, Nat.add_zero] at hcount
    show s.active + 1 = (s.goto thread (.running item)).threads.countP _
    omega
  · exact fun hnone e he => raised_goto (s := s) hat (by simp) (hs.raised hnone e he)
  · intro hq
    rw [show s.quit = true from hq] at hquit
    cases hquit

/-- `quit` is set once there is an exception, or nothing left, and nobody waits. -/
theorem Inv.setQuit (hs : Inv s) (hwait : ∀ other, s.thread? other ≠ some .waiting)
    (hleft : s.active = 0 ∧ s.pending = []) : Inv { s with quit := true } := by
  have hframe : Frame s { s with quit := true } :=
    { draining := id
      thrown := fun _ he => he
      quit := fun _ => rfl
      exception := fun _ he => he
      returned := fun _ he => he
      sleeping := fun ⟨other, hother⟩ => absurd hother (hwait other)
      exited := fun hall _ => hall
      length := fun _ => rfl
      workers := fun _ hw => hw }
  exact
    { queue := hs.queue
      ran := hs.ran
      active := hs.active
      place := fun other q hq => Place.frame hs hframe hq
      raised := hs.raised
      recorded := fun e he => ⟨(hs.recorded e he).1, rfl⟩
      drained := fun _ _ => Or.inl hleft
      handles := hs.handles.imp id fun ⟨hw, _, hall⟩ => ⟨hw, rfl, hall⟩ }

theorem place_leave (hquit : s.quit = true) : Place s thread (State.leave thread) := by
  unfold State.leave
  split
  · rename_i heq
    exact ⟨heq, hquit⟩
  · rename_i hne
    exact ⟨hne, hquit⟩

theorem leave_inactive (thread : Nat) : (State.leave thread : Pc ε).isActive = false := by
  unfold State.leave
  split <;> rfl

theorem Inv.next (hs : Inv s) (hat : s.thread? thread = some .woken) : Inv (s.next thread) := by
  unfold State.next
  split
  · rename_i hquit
    exact hs.quietMove ⟨hat, rfl, leave_inactive thread, by simp, rfl, place_leave hquit⟩
  · rename_i hquit
    have hquit' : s.quit = false := by simpa using hquit
    split
    · rename_i item pending hpending
      exact hs.take hat hquit' hpending
    · rename_i hpending
      split
      · rename_i hleft
        have hat' : s.notifyAll.thread? thread = some .woken := by
          rw [thread?_notifyAll, hat]
          rfl
        have hset := hs.notifyAll.setQuit (not_waiting_notifyAll s) ⟨hleft.1, hpending⟩
        exact hset.quietMove ⟨hat', rfl, leave_inactive thread, by simp, rfl, place_leave rfl⟩
      · refine hs.quietMove ⟨hat, rfl, rfl, by simp, rfl, hs.place thread _ hat, fun hq => ?_⟩
        rw [show s.quit = true from hq] at hquit'
        cases hquit'

/-- A work item ends. -/
theorem Inv.finishItem (hs : Inv s) {item : Nat} (hat : s.thread? thread = some (.running item))
    {exc : Option ε} {thrown : List ε}
    (h : (exc = none ∧ thrown = s.thrown) ∨ ∃ e, exc = some e ∧ thrown = s.thrown ++ [e]) :
    Inv ({ s with finished := s.finished ++ [item], thrown := thrown }.goto thread
      (.top (some exc))) := by
  have hthrown : ∀ e ∈ s.thrown, e ∈ thrown := by
    intro e he
    rcases h with ⟨-, rfl⟩ | ⟨_, -, rfl⟩
    · exact he
    · exact List.mem_append_left _ he
  have hframe : Frame s ({ s with finished := s.finished ++ [item], thrown := thrown }.goto thread
      (.top (some exc))) :=
    { draining := id
      thrown := hthrown
      quit := id
      exception := fun _ he => he
      returned := fun _ he => he
      sleeping := fun _ hnotify hq => Notifying.goto (s := s) (hnotify hq) hat rfl
      exited := fun hall _ => AllExited.goto (s := s) hall hat (by simp)
      length := fun _ => by simp [State.goto]
      workers := fun _ hw => hw }
  have hplace : Place ({ s with finished := s.finished ++ [item], thrown := thrown }.goto thread
      (.top (some exc))) thread (.top (some exc)) := by
    refine ⟨hs.place thread _ hat, fun e he => ?_⟩
    obtain rfl := Option.some.inj he
    rcases h with ⟨hnone, -⟩ | ⟨e', he', rfl⟩
    · cases hnone
    · obtain rfl := Option.some.inj he'
      exact List.mem_append_right _ (List.mem_singleton.mpr rfl)
  refine { queue := hs.queue, ran := ?_, active := ?_, raised := ?_, drained := ?_,
           recorded := fun e he => ⟨hthrown e (hs.recorded e he).1, (hs.recorded e he).2⟩,
           place := hs.place_goto hframe rfl hat hplace, handles := handles_goto hs hat rfl (by simp) }
  · intro other
    have hrun := countP_goto (.top (some exc)) (Pc.isRunning other) hat
    have hran := hs.ran other
    show (s.finished ++ [item]).count other + (s.goto thread (.top (some exc))).threads.countP _ =
      s.started.count other
    simp only [Pc.isRunning, Bool.toNat_false, Nat.add_zero] at hrun
    rw [List.count_append, List.count_singleton]
    cases hsame : item == other <;> simp only [hsame, Bool.toNat_true, Bool.toNat_false] at hrun ⊢ <;>
      simp <;> omega
  · have hcount := countP_goto (.top (some exc)) Pc.isActive hat
    have hactive := hs.active
    simp only [Pc.isActive, Bool.toNat_true] at hcount
    show s.active = (s.goto thread (.top (some exc))).threads.countP _
    omega
  · intro hnone e he
    have hother : e ∈ s.thrown ∨ exc = some e := by
      rcases h with ⟨-, rfl⟩ | ⟨e', rfl, rfl⟩
      · exact Or.inl he
      · rcases List.mem_append.mp he with he | he
        · exact Or.inl he
        · exact Or.inr (by rw [List.mem_singleton.mp he])
    rcases hother with he | rfl
    · exact raised_goto (s := s) hat (by simp) (hs.raised hnone e he)
    · refine ⟨thread, ?_⟩
      show (s.goto thread _).thread? thread = _
      rw [thread?_goto hat, if_pos rfl]
  · exact fun hq hnone => (hs.drained hq hnone).imp id fun hd => Destroying.goto (s := s) hd hat rfl

/-- A new item, and a worker for it if there is room for one. -/
theorem Inv.push (hs : Inv s) (hquit : s.quit = false) : Inv s.push := by
  have hopen : ¬ s.quit = true := by simp [hquit]
  have hnotify : ¬ Notifying s := fun ⟨_, _, h0⟩ => hopen (hs.place 0 _ h0).2.1
  have hqueue : s.started ++ (s.pending ++ [s.enqueued]) = List.range (s.enqueued + 1) := by
    rw [← List.append_assoc, hs.queue, List.range_succ]
  have hplain : Inv { s with pending := s.pending ++ [s.enqueued], enqueued := s.enqueued + 1 } :=
    { queue := hqueue
      ran := hs.ran
      active := hs.active
      place := fun other q hq => Place.frame (s := s) hs
        { draining := id
          thrown := fun _ he => he
          quit := id
          exception := fun _ he => he
          returned := fun _ he => he
          sleeping := fun _ hn hq => hn hq
          exited := fun hall _ => hall
          length := fun _ => rfl
          workers := fun _ hw => hw } hq
      raised := hs.raised
      recorded := hs.recorded
      drained := fun hq => absurd hq hopen
      handles := hs.handles }
  unfold State.push
  dsimp only
  split
  · have hlength : s.workers + 1 = s.threads.length := by
      rcases hplain.handles with hw | ⟨-, hq, -⟩
      · exact hw
      · exact absurd hq hopen
    have hold : ∀ {other : Nat} {q : Pc ε}, s.thread? other = some q →
        (s.threads ++ [.top none])[other]? = some q := by
      intro other q hq
      obtain ⟨hlt, -⟩ := List.getElem?_eq_some_iff.mp hq
      rw [List.getElem?_append_left hlt]
      exact hq
    refine { queue := hqueue, ran := ?_, active := ?_, place := ?_, raised := ?_, recorded := hs.recorded,
             drained := fun hq => absurd hq hopen, handles := Or.inl (by simp; omega) }
    · intro item
      simpa [Pc.isRunning] using hs.ran item
    · simpa [Pc.isActive] using hs.active
    · intro other q hq
      have hq' : (s.threads ++ [.top none])[other]? = some q := hq
      rcases Nat.lt_or_ge other s.threads.length with hlt | hge
      · rw [List.getElem?_append_left hlt] at hq'
        refine Place.frame (s := s) hs ?_ hq'
        exact
          { draining := id
            thrown := fun _ he => he
            quit := id
            exception := fun _ he => he
            returned := fun _ he => he
            sleeping := fun _ hn hq => absurd (hn hq) hnotify
            exited := fun _ hq => absurd hq hopen
            length := fun hq => absurd hq hopen
            workers := fun hq => absurd hq hopen }
      · obtain ⟨hlt, -⟩ := List.getElem?_eq_some_iff.mp hq'
        rw [List.length_append, List.length_singleton] at hlt
        have heq : other = s.threads.length := by omega
        subst heq
        simp only [List.getElem?_concat_length, Option.some.injEq] at hq'
        subst hq'
        refine ⟨fun h0 => ?_, fun e he => ?_⟩
        · omega
        · cases he
    · intro hnone e he
      obtain ⟨other, hother⟩ := hs.raised hnone e he
      exact ⟨other, hold hother⟩
  · exact hplain

theorem AllExited.not_waiting (h : AllExited s) (h0 : s.thread? 0 ≠ some .waiting) (other : Nat) :
    s.thread? other ≠ some .waiting := by
  intro hwait
  by_cases heq : other = 0
  · exact h0 (heq ▸ hwait)
  · cases h other _ heq hwait

/-- The calling thread goes through `shutdown()`. -/
theorem Inv.reap (hs : Inv s) (hat : s.thread? 0 = some pc) (hpc : pc.isActive = false)
    (hstays : pc ≠ .exited) (hpc' : pc'.isActive = false) {workers : Nat}
    (hplace : Place ({ s with quit := true, workers := workers }.goto 0 pc') 0 pc')
    (hsleep : (∀ other, s.thread? other ≠ some .waiting) ∨ ∃ rethrow n, pc' = .notifying rethrow n)
    (hdestroy : s.exception = none →
      Destroying ({ s with quit := true, workers := workers }.goto 0 pc'))
    (hhandles : workers = 0 ∧ (AllExited s ∨ ∃ rethrow n, pc' = .notifying rethrow n ∨
      pc' = .joining rethrow n)) :
    Inv ({ s with quit := true, workers := workers }.goto 0 pc') := by
  have hhere : (s.goto 0 pc').thread? 0 = some pc' := by
    rw [thread?_goto hat, if_pos rfl]
  have hframe : Frame s ({ s with quit := true, workers := workers }.goto 0 pc') :=
    { draining := id
      thrown := fun _ he => he
      quit := fun _ => rfl
      exception := fun _ he => he
      returned := fun _ he => he
      sleeping := fun ⟨other, hother⟩ _ _ => hsleep.elim (fun hno => absurd hother (hno other))
        fun ⟨rethrow, n, heq⟩ => ⟨rethrow, n, heq ▸ hhere⟩
      exited := fun hall _ => AllExited.goto (s := s) hall hat hstays
      length := fun _ => by simp [State.goto]
      workers := fun _ _ => hhandles.1 }
  refine { queue := hs.queue, ran := ?_, active := ?_, raised := ?_, drained := ?_,
           recorded := fun e he => ⟨(hs.recorded e he).1, rfl⟩,
           place := hs.place_goto hframe rfl hat hplace, handles := ?_ }
  · intro item
    have hrun := countP_goto pc' (Pc.isRunning item) hat
    rw [isRunning_of_inactive hpc, isRunning_of_inactive hpc'] at hrun
    show s.finished.count item + (s.goto 0 pc').threads.countP _ = s.started.count item
    have hran := hs.ran item
    omega
  · have hcount := countP_goto pc' Pc.isActive hat
    rw [hpc, hpc'] at hcount
    have hactive := hs.active
    show s.active = (s.goto 0 pc').threads.countP _
    omega
  · intro hnone e he
    refine raised_goto (s := s) hat (fun heq => ?_) (hs.raised hnone e he)
    rw [heq] at hpc
    cases hpc
  · exact fun _ hnone => Or.inr (hdestroy hnone)
  · obtain ⟨hw, hall | ⟨rethrow, n, heq⟩⟩ := hhandles
    · exact Or.inr ⟨hw, rfl, Or.inl (AllExited.goto (s := s) hall hat hstays)⟩
    · refine Or.inr ⟨hw, rfl, Or.inr ⟨rethrow, n, ?_⟩⟩
      rcases heq with rfl | rfl
      · exact Or.inl hhere
      · exact Or.inr hhere

/-- Where `shutdown()` ends. -/
theorem Inv.reaped (hs : Inv s) (hat : s.thread? 0 = some pc) (hpc : pc.isActive = false)
    (hstays : pc ≠ .exited) (hwait : pc ≠ .waiting) {rethrow : Option ε}
    (hexc : ∀ e, rethrow = some e → s.exception = some e) (hall : AllExited s)
    (hworkers : s.workers = 0) :
    Inv ({ s with quit := true }.goto 0 (Pc.finished rethrow)) := by
  have hhere : ({ s with quit := true, workers := 0 }.goto 0 (Pc.finished rethrow)).thread? 0 =
      some (Pc.finished rethrow) := by
    rw [thread?_goto (s := { s with quit := true, workers := 0 }) hat, if_pos rfl]
  have hafter : AllExited ({ s with quit := true, workers := 0 }.goto 0 (Pc.finished rethrow)) :=
    AllExited.goto (s := s) hall hat hstays
  have hnot : ∀ other, s.thread? other ≠ some .waiting :=
    hall.not_waiting fun h => hwait (Option.some.inj (hat.symm.trans h))
  have hinv : Inv ({ s with quit := true, workers := 0 }.goto 0 (Pc.finished rethrow)) := by
    refine hs.reap hat hpc hstays (by cases rethrow <;> rfl) ?_ (Or.inl hnot) ?_ ⟨rfl, Or.inl hall⟩
    · cases rethrow with
      | none => exact ⟨rfl, rfl, hafter⟩
      | some e => exact ⟨rfl, hexc e rfl, hafter⟩
    · intro hnone
      cases rethrow with
      | none => exact Or.inr hhere
      | some e =>
          have hsome := hexc e rfl
          rw [hnone] at hsome
          cases hsome
  simpa only [State.goto, hworkers] using hinv

/-- `shutdown()` finds no worker left. -/
theorem Inv.allExited (hs : Inv s) {rethrow : Option ε} (hat : s.thread? 0 = some (.shutdown rethrow))
    (hworkers : s.workers = 0) : AllExited s := by
  rcases hs.handles with hw | ⟨-, -, hall | ⟨_, _, h0 | h0⟩⟩
  · intro other q hother hq
    obtain ⟨hlt, -⟩ := List.getElem?_eq_some_iff.mp hq
    omega
  · exact hall
  all_goals
    rw [hat] at h0
    cases h0

theorem allExited_of_joined {rethrow : Option ε} {workers : Nat} (hs : Inv s)
    (hat : s.thread? 0 = some (.joining rethrow workers))
    (hall : (s.threads.tail.take workers).all Pc.isExited = true) : AllExited s := by
  intro other q hother hq
  have hlength := (hs.place 0 _ hat).2.2.1.2
  obtain ⟨n, rfl⟩ := Nat.exists_eq_succ_of_ne_zero hother
  have hmem : q ∈ s.threads.tail.take workers := by
    rw [List.take_of_length_le (by simp; omega)]
    exact List.mem_of_getElem? (i := n) (by rw [List.getElem?_tail]; exact hq)
  have hq' := List.all_eq_true.mp hall q hmem
  cases q <;> first | rfl | cases hq'

/-- `enqueue` past its test of `quit`: what `push` does, and the notification. -/
theorem notifyOne_cases {t : State ε} {wake : Option Nat} (h : s.notifyOne wake = some t) :
    (t = s ∧ ∀ pc ∈ s.threads, pc.isWaiting = false) ∨
    ∃ other, s.thread? other = some .waiting ∧ t = s.goto other .woken := by
  cases wake with
  | none =>
      simp only [State.notifyOne] at h
      split at h
      · cases h
      · rename_i hany
        refine Or.inl ⟨(Option.some.inj h).symm, fun pc hpc => ?_⟩
        simpa using fun hw => hany (List.any_eq_true.mpr ⟨pc, hpc, hw⟩)
  | some other =>
      simp only [State.notifyOne] at h
      split at h
      · rename_i hother
        exact Or.inr ⟨other, hother, (Option.some.inj h).symm⟩
      · cases h

theorem Inv.spurious (hs : Inv s) (hat : s.thread? thread = some .waiting) :
    Inv (s.goto thread .woken) :=
  hs.quietMove ⟨hat, rfl, rfl, by simp, rfl, (hs.place thread _ hat).1⟩

theorem Inv.process (hs : Inv s) (hat : s.thread? 0 = some .calling) :
    Inv ({ s with draining := true }.goto 0 (.top none)) := by
  have hframe : Frame s { s with draining := true } :=
    { draining := fun _ => rfl
      thrown := fun _ he => he
      quit := id
      exception := fun _ he => he
      returned := fun _ he => he
      sleeping := fun _ hn hq => hn hq
      exited := fun hall _ => hall
      length := fun _ => rfl
      workers := fun _ hw => hw }
  have hdraining : Inv { s with draining := true } :=
    { queue := hs.queue
      ran := hs.ran
      active := hs.active
      place := fun other q hq => Place.frame hs hframe hq
      raised := hs.raised
      recorded := hs.recorded
      drained := hs.drained
      handles := hs.handles }
  exact hdraining.quietMove ⟨hat, rfl, rfl, by simp, rfl, fun _ => rfl, by simp⟩

/-- The calling thread enters `shutdown()`. -/
theorem Inv.enterShutdown (hs : Inv s) {rethrow : Option ε} (hat : s.thread? 0 = some pc)
    (hpc : pc.isActive = false) (hstays : pc ≠ .exited) (hreap : pc.isReaping = false)
    (hexc : ∀ e, rethrow = some e → s.exception = some e) : Inv (s.goto 0 (.shutdown rethrow)) :=
  hs.quietMove ⟨hat, hpc, rfl, hstays, hreap, rfl, hexc⟩

theorem Inv.quit (hs : Inv s) {rethrow : Option ε} (hat : s.thread? 0 = some (.shutdown rethrow))
    (hworkers : s.workers ≠ 0) :
    Inv ({ s with quit := true, workers := 0 }.goto 0 (.notifying rethrow s.workers)) := by
  have hhere : ({ s with quit := true, workers := 0 }.goto 0 (.notifying rethrow s.workers)).thread? 0 =
      some (.notifying rethrow s.workers) := by
    rw [thread?_goto (s := { s with quit := true, workers := 0 }) hat, if_pos rfl]
  have hexc := (hs.place 0 _ hat).2
  have hlength : s.workers + 1 = s.threads.length := by
    rcases hs.handles with hw | ⟨hw, -⟩
    · exact hw
    · exact absurd hw hworkers
  refine hs.reap hat rfl (by simp) rfl ⟨rfl, rfl, ⟨rfl, by simpa [State.goto] using hlength⟩, hexc⟩
    (Or.inr ⟨_, _, rfl⟩) ?_ ⟨rfl, Or.inr ⟨_, _, Or.inl rfl⟩⟩
  intro hnone
  cases rethrow with
  | none => exact Or.inl ⟨_, Or.inl hhere⟩
  | some e =>
      rw [hexc e rfl] at hnone
      cases hnone

theorem Inv.notifyJoin (hs : Inv s) {rethrow : Option ε} {workers : Nat}
    (hat : s.thread? 0 = some (.notifying rethrow workers)) :
    Inv (s.notifyAll.goto 0 (.joining rethrow workers)) := by
  have hat' : s.notifyAll.thread? 0 = some (.notifying rethrow workers) := by
    rw [thread?_notifyAll, hat]
    rfl
  have hhere : (s.notifyAll.goto 0 (.joining rethrow workers)).thread? 0 =
      some (.joining rethrow workers) := by
    rw [thread?_goto hat', if_pos rfl]
  obtain ⟨-, hquit, ⟨hworkers, hlength⟩, hexc⟩ := hs.place 0 _ hat
  have hplace : Place ({ s.notifyAll with quit := true, workers := 0 }.goto 0 (.joining rethrow workers))
      0 (.joining rethrow workers) :=
    ⟨rfl, rfl, ⟨rfl, by simpa [State.goto, State.notifyAll] using hlength⟩, hexc⟩
  have hinv := hs.notifyAll.reap hat' rfl (by simp) rfl hplace
    (Or.inl (not_waiting_notifyAll s)) ?_ ⟨rfl, Or.inr ⟨_, _, Or.inr rfl⟩⟩
  · simpa only [State.goto, State.notifyAll, hquit, hworkers] using hinv
  · intro hnone
    cases rethrow with
    | none => exact Or.inl ⟨_, Or.inr hhere⟩
    | some e =>
        have hsome := hexc e rfl
        rw [show s.exception = none from hnone] at hsome
        cases hsome

/-- Every step keeps the invariant. -/
theorem Inv.step {t : State ε} {e : Event ε} (hs : Inv s) (h : step s e = some t) : Inv t := by
  cases e with
  | enqueue thread wake =>
      simp only [ThreadPool.step] at h
      split at h
      · split at h
        · split at h
          · obtain rfl := Option.some.inj h
            exact hs
          · rename_i hquit
            have hpush := hs.push (by simpa using hquit)
            rcases notifyOne_cases h with ⟨rfl, -⟩ | ⟨other, hother, rfl⟩
            · exact hpush
            · exact hpush.spurious hother
        · cases h
      · cases h
  | doWork thread =>
      simp only [ThreadPool.step] at h
      split at h
      · rename_i ran hat
        obtain rfl := Option.some.inj h
        have hmid := hs.account hat
        simpa only [next_goto] using hmid.next (thread?_account_goto hat)
      · rename_i hat
        obtain rfl := Option.some.inj h
        exact hs.next hat
      · cases h
  | itemReturn thread =>
      simp only [ThreadPool.step] at h
      split at h
      · rename_i item hat
        obtain rfl := Option.some.inj h
        exact hs.finishItem hat (Or.inl ⟨rfl, rfl⟩)
      · cases h
  | itemThrow thread e =>
      simp only [ThreadPool.step] at h
      split at h
      · rename_i item hat
        obtain rfl := Option.some.inj h
        exact hs.finishItem hat (Or.inr ⟨e, rfl, rfl⟩)
      · cases h
  | spurious thread =>
      simp only [ThreadPool.step] at h
      split at h
      · rename_i hat
        obtain rfl := Option.some.inj h
        exact hs.spurious hat
      · cases h
  | process =>
      simp only [ThreadPool.step] at h
      split at h
      · rename_i hat
        obtain rfl := Option.some.inj h
        exact hs.process hat
      · cases h
  | check =>
      simp only [ThreadPool.step] at h
      split at h
      · rename_i hat
        split at h
        · rename_i e hexc
          obtain rfl := Option.some.inj h
          refine hs.enterShutdown hat rfl (by simp) rfl fun e' he' => ?_
          obtain rfl := Option.some.inj he'
          exact hexc
        · rename_i hexc
          obtain rfl := Option.some.inj h
          exact hs.quietMove ⟨hat, rfl, rfl, by simp, rfl, rfl, (hs.place 0 _ hat).2, hexc⟩
      · cases h
  | destroy =>
      simp only [ThreadPool.step] at h
      split at h
      · rename_i hat
        obtain rfl := Option.some.inj h
        exact hs.enterShutdown hat rfl (by simp) rfl (by simp)
      · rename_i hat
        obtain rfl := Option.some.inj h
        exact hs.enterShutdown hat rfl (by simp) rfl (by simp)
      · rename_i e hat
        obtain rfl := Option.some.inj h
        exact hs.enterShutdown hat rfl (by simp) rfl (by simp)
      · cases h
  | quit =>
      simp only [ThreadPool.step] at h
      split at h
      · rename_i rethrow hat
        split at h
        · rename_i hworkers
          obtain rfl := Option.some.inj h
          exact hs.reaped hat rfl (by simp) (by simp) (hs.place 0 _ hat).2 (hs.allExited hat hworkers)
            hworkers
        · rename_i hworkers
          obtain rfl := Option.some.inj h
          exact hs.quit hat hworkers
      · cases h
  | notifyAll =>
      simp only [ThreadPool.step] at h
      split at h
      · rename_i rethrow workers hat
        obtain rfl := Option.some.inj h
        exact hs.notifyJoin hat
      · cases h
  | join =>
      simp only [ThreadPool.step] at h
      split at h
      · rename_i rethrow workers hat
        split at h
        · rename_i hall
          obtain rfl := Option.some.inj h
          obtain ⟨-, hquit, ⟨hworkers, -⟩, hexc⟩ := hs.place 0 _ hat
          have hinv := hs.reaped hat rfl (by simp) (by simp) hexc (allExited_of_joined hs hat hall) hworkers
          simpa only [State.goto, hquit] using hinv
        · cases h
      · cases h

end Moves

end ThreadPool
end Util
end Archinix
