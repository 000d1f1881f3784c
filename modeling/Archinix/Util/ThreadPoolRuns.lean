import Archinix.Util.ThreadPoolInvariant

/-!
# Runs of the thread pool

`process_runs_every_item_once`: what `process()` has done when it ends, and that no
thread sleeps through work that is left.
-/

namespace Archinix
namespace Util
namespace ThreadPool

open Foundation

variable {ε : Type}

section Runs

variable {s t : State ε} {thread : Nat} {pc : Pc ε} {e : Event ε}

theorem inv_initial (maxThreads : Nat) : Inv (initial maxThreads : State ε) := by
  refine { queue := rfl, ran := fun _ => rfl, active := rfl, place := ?_, raised := ?_, recorded := ?_,
           drained := ?_, handles := Or.inl rfl }
  · intro thread pc h
    obtain ⟨hlt, hget⟩ := List.getElem?_eq_some_iff.mp h
    have h0 : thread = 0 := by simpa [initial] using hlt
    subst h0
    obtain rfl : Pc.calling = pc := hget
    rfl
  · exact fun _ e he => by cases he
  · exact fun e he => by cases he
  · exact fun hquit => by cases hquit

theorem inv_of_reachable (h : system.Reachable s) : Inv s := by
  refine h.invariant ?_ ?_
  · rintro _ ⟨requested, hardware, rfl⟩
    exact inv_initial _
  · exact fun s e t hs hstep => hs.step hstep

/-! ### No wake-up is lost -/

/-- Somebody is awake while a thread waits and there is something for it to do. -/
def Heard (s : State ε) : Prop :=
  (∃ thread, s.thread? thread = some .waiting) →
    s.pending ≠ [] ∨ (s.draining = true ∧ s.active = 0) →
    ∃ thread pc, s.thread? thread = some pc ∧ pc.isAwake = true

theorem Heard.of_awake (hat : s.thread? thread = some pc) (hpc : pc.isAwake = true) : Heard s :=
  fun _ _ => ⟨thread, pc, hat, hpc⟩

theorem heard_goto {pc' : Pc ε} (hat : s.thread? thread = some pc) (hpc' : pc'.isAwake = true)
    (hthreads : t.threads = (s.goto thread pc').threads) : Heard t := by
  have hhere : t.thread? thread = some pc' := by
    rw [State.thread?, hthreads, ← State.thread?, thread?_goto hat, if_pos rfl]
  exact Heard.of_awake hhere hpc'

/-- Once `quit` is set a waiting thread is about to be notified. -/
theorem Inv.heard_of_quit (hs : Inv s) (hquit : s.quit = true) : Heard s := by
  intro ⟨thread, hwait⟩ _
  obtain ⟨rethrow, workers, h0⟩ := (hs.place thread _ hwait).2 hquit
  exact ⟨0, _, h0, rfl⟩

theorem Inv.heard_next (hs : Inv s) (hat : s.thread? thread = some .woken) :
    Heard (s.next thread) := by
  have hnext := hs.next hat
  revert hnext
  unfold State.next
  split
  · rename_i hquit
    exact fun hnext => hnext.heard_of_quit hquit
  · split
    · exact fun _ => heard_goto hat rfl rfl
    · rename_i hpending
      split
      · exact fun hnext => hnext.heard_of_quit rfl
      · rename_i hleft
        -- the thread goes to sleep because there is nothing to do
        rintro - - (h | ⟨hdraining, hactive⟩)
        · exact absurd hpending h
        · exact absurd ⟨hactive, hdraining⟩ hleft

theorem Heard.step (hs : Inv s) (hheard : Heard s) (h : step s e = some t) : Heard t := by
  have ht := hs.step h
  cases e with
  | enqueue thread wake =>
      simp only [ThreadPool.step] at h
      split at h
      · split at h
        · split at h
          · obtain rfl := Option.some.inj h
            exact hheard
          · rcases notifyOne_cases h with ⟨rfl, hnone⟩ | ⟨other, hother, rfl⟩
            · rintro ⟨other, hother⟩
              have hwait := hnone _ (List.mem_of_getElem? hother)
              cases hwait
            · exact heard_goto hother rfl rfl
        · cases h
      · cases h
  | doWork thread =>
      simp only [ThreadPool.step] at h
      split at h
      · rename_i ran hat
        obtain rfl := Option.some.inj h
        rw [← next_goto]
        exact (hs.account hat).heard_next (thread?_account_goto hat)
      · rename_i hat
        obtain rfl := Option.some.inj h
        exact hs.heard_next hat
      · cases h
  | itemReturn thread =>
      simp only [ThreadPool.step] at h
      split at h
      · rename_i item hat
        obtain rfl := Option.some.inj h
        exact heard_goto hat rfl rfl
      · cases h
  | itemThrow thread e =>
      simp only [ThreadPool.step] at h
      split at h
      · rename_i item hat
        obtain rfl := Option.some.inj h
        exact heard_goto hat rfl rfl
      · cases h
  | spurious thread =>
      simp only [ThreadPool.step] at h
      split at h
      · rename_i hat
        obtain rfl := Option.some.inj h
        exact heard_goto hat rfl rfl
      · cases h
  | process =>
      simp only [ThreadPool.step] at h
      split at h
      · rename_i hat
        obtain rfl := Option.some.inj h
        exact heard_goto hat rfl rfl
      · cases h
  | check =>
      simp only [ThreadPool.step] at h
      split at h
      · rename_i hat
        have hquit := (hs.place 0 _ hat).2
        split at h <;> obtain rfl := Option.some.inj h <;> exact ht.heard_of_quit hquit
      · cases h
  | destroy =>
      simp only [ThreadPool.step] at h
      split at h
      · rename_i hat
        obtain rfl := Option.some.inj h
        exact heard_goto hat rfl rfl
      · rename_i hat
        obtain rfl := Option.some.inj h
        exact heard_goto hat rfl rfl
      · rename_i e hat
        obtain rfl := Option.some.inj h
        exact heard_goto hat rfl rfl
      · cases h
  | quit =>
      simp only [ThreadPool.step] at h
      split at h
      · split at h <;> obtain rfl := Option.some.inj h <;> exact ht.heard_of_quit rfl
      · cases h
  | notifyAll =>
      simp only [ThreadPool.step] at h
      split at h
      · rename_i rethrow workers hat
        obtain rfl := Option.some.inj h
        exact ht.heard_of_quit (hs.place 0 _ hat).2.1
      · cases h
  | join =>
      simp only [ThreadPool.step] at h
      split at h
      · rename_i rethrow workers hat
        split at h
        · obtain rfl := Option.some.inj h
          exact ht.heard_of_quit (hs.place 0 _ hat).2.1
        · cases h
      · cases h

theorem heard_of_reachable (h : system.Reachable s) : Heard s := by
  have hboth : Inv s ∧ Heard s := by
    refine h.invariant (P := fun s => Inv s ∧ Heard s) ?_ ?_
    · rintro _ ⟨requested, hardware, rfl⟩
      refine ⟨inv_initial _, ?_⟩
      rintro - (h | ⟨h, -⟩)
      · exact absurd rfl h
      · cases h
    · exact fun s e t hs hstep => ⟨hs.1.step hstep, hs.2.step hs.1 hstep⟩
  exact hboth.2

/-! ### How `process()` ends -/

def NoneRunning (s : State ε) : Prop := ∀ thread item, s.thread? thread ≠ some (.running item)

/-- The calling thread is past `process()`, which has thrown. -/
def Pc.isOver : Pc ε → Bool
  | .rethrown _ => true
  | .shutdown none => true
  | .notifying none _ => true
  | .joining none _ => true
  | .destroyed => true
  | _ => false

/-- Nothing of the pool will run again. -/
structure Stopped (s : State ε) : Prop where
  quit : s.quit = true
  exited : AllExited s
  caller : ∃ pc, s.thread? 0 = some pc ∧ pc.isOver = true

theorem Stopped.not_at (h : Stopped s) (hat : s.thread? thread = some pc) (hover : pc.isOver = false)
    (hexited : pc ≠ .exited) : False := by
  by_cases h0 : thread = 0
  · subst h0
    obtain ⟨q, hq, hqover⟩ := h.caller
    rw [hat] at hq
    obtain rfl := Option.some.inj hq
    rw [hover] at hqover
    cases hqover
  · exact hexited (h.exited thread pc h0 hat)

theorem Stopped.noneRunning (h : Stopped s) : NoneRunning s :=
  fun _ _ hat => h.not_at hat rfl (by simp)

/-- The destructor moves on. -/
theorem Stopped.goto (h : Stopped s) {pc' : Pc ε} (hat : s.thread? 0 = some pc)
    (hover : pc'.isOver = true) (hquit : t.quit = true)
    (hthreads : t.threads = (s.goto 0 pc').threads) : Stopped t := by
  have hsame : ∀ other, t.thread? other = (s.goto 0 pc').thread? other := by
    intro other
    rw [State.thread?, hthreads, ← State.thread?]
  refine ⟨hquit, fun other q hother hq => ?_, pc', ?_, hover⟩
  · rw [hsame, thread?_goto hat, if_neg hother] at hq
    exact h.exited other q hother hq
  · rw [hsame, thread?_goto hat, if_pos rfl]

theorem Stopped.notifyAll (h : Stopped s) : Stopped s.notifyAll := by
  obtain ⟨hquit, hexited, pc, hat, hover⟩ := h
  refine ⟨hquit, fun other q hother hq => ?_, pc, ?_, hover⟩
  · rw [thread?_notifyAll] at hq
    obtain ⟨r, hr, rfl⟩ := Option.map_eq_some_iff.mp hq
    rw [hexited other r hother hr]
    rfl
  · rw [thread?_notifyAll, hat]
    cases pc <;> first | rfl | cases hover

/-- No item starts once `process()` has thrown. -/
theorem Stopped.step (hs : Stopped s) (h : step s e = some t) : Stopped t ∧ t.started = s.started := by
  have hno : ∀ {thread : Nat} {pc : Pc ε}, s.thread? thread = some pc → pc.isOver = false →
      pc ≠ .exited → Stopped t ∧ t.started = s.started :=
    fun hat hover hexited => (hs.not_at hat hover hexited).elim
  cases e with
  | enqueue thread wake =>
      simp only [ThreadPool.step, hs.quit, if_true] at h
      split at h
      · split at h
        · obtain rfl := Option.some.inj h
          exact ⟨hs, rfl⟩
        · cases h
      · cases h
  | doWork thread =>
      simp only [ThreadPool.step] at h
      split at h
      · rename_i hat
        exact hno hat rfl (by simp)
      · rename_i hat
        exact hno hat rfl (by simp)
      · cases h
  | itemReturn thread =>
      simp only [ThreadPool.step] at h
      split at h
      · rename_i hat
        exact hno hat rfl (by simp)
      · cases h
  | itemThrow thread e =>
      simp only [ThreadPool.step] at h
      split at h
      · rename_i hat
        exact hno hat rfl (by simp)
      · cases h
  | spurious thread =>
      simp only [ThreadPool.step] at h
      split at h
      · rename_i hat
        exact hno hat rfl (by simp)
      · cases h
  | process =>
      simp only [ThreadPool.step] at h
      split at h
      · rename_i hat
        exact hno hat rfl (by simp)
      · cases h
  | check =>
      simp only [ThreadPool.step] at h
      split at h
      · rename_i hat
        exact hno hat rfl (by simp)
      · cases h
  | destroy =>
      simp only [ThreadPool.step] at h
      split at h
      · rename_i hat
        exact hno hat rfl (by simp)
      · rename_i hat
        exact hno hat rfl (by simp)
      · rename_i e hat
        obtain rfl := Option.some.inj h
        exact ⟨hs.goto hat rfl hs.quit rfl, rfl⟩
      · cases h
  | quit =>
      simp only [ThreadPool.step] at h
      split at h
      · rename_i rethrow hat
        cases rethrow with
        | some e => exact hno hat rfl (by simp)
        | none =>
            split at h <;> obtain rfl := Option.some.inj h
            · exact ⟨hs.goto hat rfl rfl rfl, rfl⟩
            · exact ⟨hs.goto hat rfl rfl rfl, rfl⟩
      · cases h
  | notifyAll =>
      simp only [ThreadPool.step] at h
      split at h
      · rename_i rethrow workers hat
        obtain rfl := Option.some.inj h
        cases rethrow with
        | some e => exact hno hat rfl (by simp)
        | none =>
            have hat' : s.notifyAll.thread? 0 = some (.notifying none workers) := by
              rw [thread?_notifyAll, hat]
              rfl
            exact ⟨hs.notifyAll.goto hat' rfl hs.quit rfl, rfl⟩
      · cases h
  | join =>
      simp only [ThreadPool.step] at h
      split at h
      · rename_i rethrow workers hat
        cases rethrow with
        | some e => exact hno hat rfl (by simp)
        | none =>
            split at h
            · obtain rfl := Option.some.inj h
              exact ⟨hs.goto hat rfl hs.quit rfl, rfl⟩
            · cases h
      · cases h

theorem Stopped.run {ls : List (Event ε)} (hs : Stopped s) (h : system.Run s ls t) :
    Stopped t ∧ t.started = s.started := by
  refine h.preserves (P := fun t => Stopped t ∧ t.started = s.started) ?_ ⟨hs, rfl⟩
  rintro u e v ⟨hu, hstarted⟩ hstep
  obtain ⟨hv, hsame⟩ := hu.step hstep
  exact ⟨hv, hsame.trans hstarted⟩

theorem Inv.stopped {x : ε} (hs : Inv s) (hat : s.thread? 0 = some (.rethrown x)) : Stopped s := by
  obtain ⟨-, hexc, hexited⟩ := hs.place 0 _ hat
  exact ⟨(hs.recorded x hexc).2, hexited, _, hat, rfl⟩

/-- When `process()` returns, every item has run, once, and nothing was thrown. -/
theorem Inv.returned (hs : Inv s) (hat : s.thread? 0 = some .returned) :
    (∀ item < s.enqueued, s.started.count item = 1 ∧ s.finished.count item = 1) ∧
      NoneRunning s ∧ s.thrown = [] := by
  obtain ⟨-, hquit, hexc⟩ := hs.place 0 _ hat
  obtain ⟨hactive, hpending⟩ : s.active = 0 ∧ s.pending = [] := by
    rcases hs.drained hquit hexc with hleft | ⟨_, h0 | h0⟩ | h0
    · exact hleft
    all_goals
      rw [hat] at h0
      cases h0
  have hinactive : ∀ thread pc, s.thread? thread = some pc → pc.isActive = false := by
    intro thread pc hpc
    have hzero : s.threads.countP Pc.isActive = 0 := hs.active.symm.trans hactive
    simpa using List.countP_eq_zero.mp hzero pc (List.mem_of_getElem? hpc)
  have hnone : NoneRunning s := fun thread item h => by cases hinactive thread _ h
  refine ⟨fun item hitem => ?_, hnone, ?_⟩
  · have hstarted : s.started.count item = 1 := by
      have hqueue := hs.queue
      rw [hpending, List.append_nil] at hqueue
      rw [hqueue]
      exact List.count_eq_one_of_mem List.nodup_range (List.mem_range.mpr hitem)
    have hran := hs.ran item
    have hidle : s.threads.countP (Pc.isRunning item) = 0 := by
      refine List.countP_eq_zero.mpr fun pc hpc => ?_
      obtain ⟨thread, hthread⟩ := List.mem_iff_getElem?.mp hpc
      simp [isRunning_of_inactive (hinactive thread pc hthread) item]
    omega
  · cases hthrown : s.thrown with
    | nil => rfl
    | cons x rest =>
        obtain ⟨thread, hraised⟩ := hs.raised hexc x (hthrown ▸ List.mem_cons_self)
        cases hinactive thread _ hraised

/-! ### `process()` does not hang -/

/-- The steps that the threads of the pool take by themselves. -/
def Event.isForward : Event ε → Bool
  | .enqueue _ _ => false
  | .spurious _ => false
  | _ => true

/-- The calling thread is in `process()` or in `shutdown()`. -/
def Pc.isBusy : Pc ε → Bool
  | .calling => false
  | .returned => false
  | .rethrown _ => false
  | .destroyed => false
  | _ => true

theorem Inv.awake_step (hs : Inv s) (hat : s.thread? thread = some pc) (hpc : pc.isAwake = true) :
    ∃ e t, ThreadPool.step s e = some t ∧ e.isForward = true := by
  have hplace := hs.place thread pc hat
  cases pc with
  | top ran => exact ⟨.doWork thread, _, by simp only [ThreadPool.step, hat]; rfl, rfl⟩
  | woken => exact ⟨.doWork thread, _, by simp only [ThreadPool.step, hat]; rfl, rfl⟩
  | running item => exact ⟨.itemReturn thread, _, by simp only [ThreadPool.step, hat]; rfl, rfl⟩
  | checking =>
      obtain ⟨rfl, -⟩ := hplace
      cases hexc : s.exception with
      | none => exact ⟨.check, _, by simp only [ThreadPool.step, hat, hexc]; rfl, rfl⟩
      | some e => exact ⟨.check, _, by simp only [ThreadPool.step, hat, hexc]; rfl, rfl⟩
  | shutdown rethrow =>
      obtain ⟨rfl, -⟩ := hplace
      by_cases hworkers : s.workers = 0
      · exact ⟨.quit, _, by simp only [ThreadPool.step, hat, hworkers, if_true]; rfl, rfl⟩
      · exact ⟨.quit, _, by simp only [ThreadPool.step, hat, hworkers, if_false]; rfl, rfl⟩
  | notifying rethrow workers =>
      obtain ⟨rfl, -⟩ := hplace
      exact ⟨.notifyAll, _, by simp only [ThreadPool.step, hat]; rfl, rfl⟩
  | _ => cases hpc

/-- A worker that has neither ended nor to be notified is awake. -/
theorem Inv.awake_worker (hs : Inv s) (hat : s.thread? thread = some pc) (hworker : thread ≠ 0)
    (hlive : pc ≠ .exited) (hquit : s.quit = true) (hnotify : ¬ Notifying s) : pc.isAwake = true := by
  have hplace := hs.place thread pc hat
  cases pc with
  | top ran => rfl
  | woken => rfl
  | running item => rfl
  | waiting => exact absurd (hplace.2 hquit) hnotify
  | exited => exact absurd rfl hlive
  | calling => exact absurd hplace hworker
  | _ => exact absurd hplace.1 hworker

/-- As long as the calling thread is in `process()`, some thread can go on. -/
theorem Inv.progress (hs : Inv s) (hheard : Heard s) (hat : s.thread? 0 = some pc)
    (hbusy : pc.isBusy = true) : ∃ e t, ThreadPool.step s e = some t ∧ e.isForward = true := by
  cases pc with
  | waiting =>
      have hplace := hs.place 0 _ hat
      by_cases hleft : s.pending ≠ [] ∨ (s.draining = true ∧ s.active = 0)
      · obtain ⟨thread, q, hq, hawake⟩ := hheard ⟨0, hat⟩ hleft
        exact hs.awake_step hq hawake
      · have hactive : s.threads.countP Pc.isActive ≠ 0 := by
          rw [← hs.active]
          exact fun hzero => hleft (Or.inr ⟨hplace.1 rfl, hzero⟩)
        obtain ⟨q, hq, hqactive⟩ := List.countP_pos_iff.mp (Nat.pos_of_ne_zero hactive)
        obtain ⟨thread, hthread⟩ := List.mem_iff_getElem?.mp hq
        have hawake : q.isAwake = true := by
          cases q <;> first | rfl | cases hqactive
        exact hs.awake_step hthread hawake
  | joining rethrow workers =>
      obtain ⟨-, hquit, -, -⟩ := hs.place 0 _ hat
      by_cases hall : (s.threads.tail.take workers).all Pc.isExited = true
      · exact ⟨.join, _, by simp only [ThreadPool.step, hat, hall, if_true]; rfl, rfl⟩
      · have hnot : ¬ AllExited s := by
          intro hexited
          refine hall (List.all_eq_true.mpr fun q hq => ?_)
          obtain ⟨n, hn⟩ := List.mem_iff_getElem?.mp (List.mem_of_mem_take hq)
          rw [List.getElem?_tail] at hn
          rw [hexited (n + 1) q (by omega) hn]
          rfl
        simp only [AllExited, not_forall] at hnot
        obtain ⟨thread, q, hworker, hq, hlive⟩ := hnot
        refine hs.awake_step hq (hs.awake_worker hq hworker hlive hquit ?_)
        rintro ⟨_, _, h0⟩
        rw [hat] at h0
        cases h0
  | top ran => exact hs.awake_step hat rfl
  | woken => exact hs.awake_step hat rfl
  | running item => exact hs.awake_step hat rfl
  | checking => exact hs.awake_step hat rfl
  | shutdown rethrow => exact hs.awake_step hat rfl
  | notifying rethrow workers => exact hs.awake_step hat rfl
  | exited => exact absurd rfl (hs.place 0 _ hat).1
  | _ => cases hbusy

/-- When `process()` returns, every item enqueued has run once; when it throws, it
throws what an item has thrown, and nothing runs any more.  While there is work no
thread waits without another one being awake, and `process()` never hangs. -/
theorem process_runs_every_item_once :
    ∀ s : State ε, system.Reachable s →
      (s.thread? 0 = some .returned →
        (∀ item < s.enqueued, s.started.count item = 1 ∧ s.finished.count item = 1) ∧
          NoneRunning s ∧ s.thrown = []) ∧
      (∀ x, s.thread? 0 = some (.rethrown x) →
        x ∈ s.thrown ∧ ∀ ls t, system.Run s ls t → t.started = s.started ∧ NoneRunning t) ∧
      ((∃ thread, s.thread? thread = some .waiting) →
        s.pending ≠ [] ∨ (s.draining = true ∧ s.active = 0) →
        ∃ thread pc, s.thread? thread = some pc ∧ pc.isAwake = true) ∧
      (∀ pc, s.thread? 0 = some pc → pc.isBusy = true →
        ∃ e t, step s e = some t ∧ e.isForward = true) := by
  intro s hreach
  have hs := inv_of_reachable hreach
  have hheard := heard_of_reachable hreach
  refine ⟨hs.returned, fun x hat => ⟨?_, fun ls t hrun => ?_⟩, hheard, fun pc hat hbusy => ?_⟩
  · exact (hs.recorded x (hs.place 0 _ hat).2.1).1
  · obtain ⟨hstopped, hstarted⟩ := (hs.stopped hat).run hrun
    exact ⟨hstarted, hstopped.noneRunning⟩
  · exact hs.progress hheard hat hbusy

/-- Two threads run two items; in the second run the second item throws. -/
theorem process_runs_every_item_once_example :
    (∃ s : State Unit, system.Reachable s ∧ s.enqueued = 2 ∧
      ∀ item < s.enqueued, s.started.count item = 1 ∧ s.finished.count item = 1) ∧
    (∃ s : State Unit, system.Reachable s ∧ s.thrown = [()] ∧
      ∀ ls t, system.Run s ls t → t.started = [0, 1] ∧ NoneRunning t) := by
  have hinit : ∀ {s : State Unit} (ls : List (Event Unit)),
      TransitionSystem.follow step (initial 2) ls = some s → system.Reachable s :=
    fun ls h => ⟨initial 2, ls, ⟨2, 1, rfl⟩, TransitionSystem.run_of_follow h⟩
  have hreturn := hinit [.enqueue 0 none, .enqueue 0 none, .process, .doWork 0, .doWork 1, .itemReturn 0,
    .itemReturn 1, .doWork 1, .doWork 0, .doWork 1, .check] rfl
  have hthrow := hinit [.enqueue 0 none, .enqueue 0 none, .process, .doWork 0, .doWork 1, .itemReturn 0,
    .itemThrow 1 (), .doWork 1, .doWork 0, .check, .quit, .notifyAll, .join] rfl
  exact ⟨⟨_, hreturn, rfl, ((process_runs_every_item_once _ hreturn).1 rfl).1⟩,
    ⟨_, hthrow, rfl, ((process_runs_every_item_once _ hthrow).2.1 () rfl).2⟩⟩

end Runs

end ThreadPool
end Util
end Archinix
