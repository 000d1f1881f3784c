import Archinix.Foundation.TransitionSystem

/-!
# Path locks

`PathLocks::lockPaths` and `PathLocks::unlock` of `pathlocks.cc`, run by any
number of processes on one path.  The lock file is unlinked while others hold
it open, so its name and its inode are modelled apart: `name` is the inode the
lock file's name leads to, `owner` the process holding the `flock` of an inode,
`size` what `fstat` reports.
-/

namespace Archinix
namespace Store
namespace PathLocks

open Foundation

/-- Where a process is inside `lockPaths` or `unlock`, with its open lock files. -/
inductive Pc where
  | idle
  /-- The lock file is open; `flock(LOCK_EX | LOCK_NB)` comes next. -/
  | opened (fd : Nat)
  /-- The first attempt would have blocked; the blocking `flock` comes next. -/
  | waiting (fd : Nat)
  /-- The lock is acquired; the `fstat` comes next. -/
  | acquired (fd : Nat)
  /-- The lock file has become stale; the loop opens it anew. -/
  | stale (fd : Nat)
  /-- The new lock file is open; the assignment closes the stale one. -/
  | reopened (old new : Nat)
  /-- `lockPaths` has returned true. -/
  | holding (fd : Nat)
  /-- `unlock` with `deletePaths`; the `unlink` comes next. -/
  | deleting (fd : Nat)
  /-- The name is gone; the token comes next. -/
  | unlinked (fd : Nat)
  /-- `close` comes next. -/
  | closing (fd : Nat)
  deriving DecidableEq

namespace Pc

/-- The inode whose `flock` the process holds. -/
def lockOn : Pc → Option Nat
  | acquired fd | stale fd | reopened fd _ | holding fd | deleting fd | unlinked fd
  | closing fd => some fd
  | _ => none

/-- The process is between a successful `lockPaths` and the start of `unlock`. -/
def Holds (pc : Pc) : Prop := ∃ fd, pc = holding fd

end Pc

/-- The lock file of one path and the processes using it. -/
structure State (ι : Type) where
  pc : ι → Pc
  name : Option Nat
  size : Nat → Nat
  owner : Nat → Option ι
  nextIno : Nat

/-- The steps of a process: one system call each. -/
inductive Event where
  /-- `openLockFile(lockPath, true)`. -/
  | openLockFile
  /-- `lockFile(fd, ltWrite, false)`, and what follows when it would block:
  waiting, or returning false. -/
  | tryLock (wait : Bool)
  /-- `lockFile(fd, ltWrite, true)`. -/
  | lockFile
  | fstat
  /-- The descriptor of the stale lock file is closed. -/
  | closeStale
  /-- Any exception on the way to the lock; the destructor closes the files. -/
  | fail
  | unlock (deletePaths : Bool)
  /-- `tryUnlink(path)`, which may fail unnoticed. -/
  | unlink (succeeds : Bool)
  /-- `writeFull(desc, "d")`. -/
  | writeToken
  | close
  deriving DecidableEq

section Step

variable {ι : Type} [DecidableEq ι]

namespace State

def setPc (s : State ι) (p : ι) (c : Pc) : State ι := { s with pc := Function.update s.pc p c }

/-- `flock` granted on `fd`. -/
def acquire (s : State ι) (p : ι) (fd : Nat) : State ι :=
  { s with owner := Function.update s.owner fd (some p), pc := Function.update s.pc p (.acquired fd) }

/-- The last descriptor of `p` on `fd` is closed, and with it the lock. -/
def release (s : State ι) (p : ι) (fd : Nat) (c : Pc) : State ι :=
  { s with owner := Function.update s.owner fd none, pc := Function.update s.pc p c }

/-- `open(path, O_CREAT | O_RDWR)`: the file the name leads to, or a new one. -/
def openName (s : State ι) (p : ι) (c : Nat → Pc) : State ι :=
  match s.name with
  | some fd => s.setPc p (c fd)
  | none =>
      { s with
        name := some s.nextIno
        size := Function.update s.size s.nextIno 0
        nextIno := s.nextIno + 1
        pc := Function.update s.pc p (c s.nextIno) }

end State

/-- One step of process `p`; `none` where the event cannot happen. -/
def step (s : State ι) (p : ι) : Event → Option (State ι)
  | .openLockFile =>
      match s.pc p with
      | .idle => some (s.openName p .opened)
      | .stale fd => some (s.openName p (.reopened fd))
      | _ => none
  | .tryLock wait =>
      match s.pc p with
      | .opened fd =>
          if s.owner fd = none then some (s.acquire p fd)
          else if wait then some (s.setPc p (.waiting fd))
          else some (s.setPc p .idle)
      | _ => none
  | .lockFile =>
      match s.pc p with
      | .waiting fd => if s.owner fd = none then some (s.acquire p fd) else none
      | _ => none
  | .fstat =>
      match s.pc p with
      | .acquired fd =>
          if s.size fd ≠ 0 then some (s.setPc p (.stale fd)) else some (s.setPc p (.holding fd))
      | _ => none
  | .closeStale =>
      match s.pc p with
      | .reopened old new => some (s.release p old (.opened new))
      | _ => none
  | .fail =>
      match s.pc p with
      | .opened _ | .waiting _ => some (s.setPc p .idle)
      | .acquired fd | .stale fd | .reopened fd _ => some (s.release p fd .idle)
      | _ => none
  | .unlock deletePaths =>
      match s.pc p with
      | .holding fd => some (s.setPc p (if deletePaths then .deleting fd else .closing fd))
      | _ => none
  | .unlink succeeds =>
      match s.pc p with
      | .deleting fd =>
          let s' := s.setPc p (.unlinked fd)
          some (if succeeds then { s' with name := none } else s')
      | _ => none
  | .writeToken =>
      match s.pc p with
      | .unlinked fd =>
          some { s.setPc p (.closing fd) with size := Function.update s.size fd 1 }
      | _ => none
  | .close =>
      match s.pc p with
      | .closing fd => some (s.release p fd .idle)
      | _ => none

/-- Any number of processes, no lock taken, and a lock file of any content that
may have been left behind. -/
def system (ι : Type) [DecidableEq ι] : TransitionSystem (State ι) (ι × Event) where
  init s := (∀ p, s.pc p = .idle) ∧ (∀ fd, s.owner fd = none) ∧
    (s.name = none ∧ s.nextIno = 0 ∨ s.name = some 0 ∧ s.nextIno = 1)
  step s l s' := step s l.1 l.2 = some s'

/-- What every step preserves. -/
structure Inv (s : State ι) : Prop where
  /-- The owner of an inode's lock is the process that believes to hold it. -/
  owner_iff : ∀ fd p, s.owner fd = some p ↔ (s.pc p).lockOn = some fd
  name_lt : ∀ fd, s.name = some fd → fd < s.nextIno
  opened_lt : ∀ p fd, (s.pc p = .opened fd ∨ s.pc p = .waiting fd ∨
    (s.pc p).lockOn = some fd ∨ ∃ old, s.pc p = .reopened old fd) → fd < s.nextIno
  /-- The lock a process has checked is on the file the name leads to. -/
  linked : ∀ p fd, (s.pc p = .holding fd ∨ s.pc p = .deleting fd) →
    s.name = some fd ∧ s.size fd = 0
  /-- A file without the token that the name does not lead to has been unlinked
  by a process that is about to write the token. -/
  tokened : ∀ fd, fd < s.nextIno → s.size fd = 0 →
    s.name = some fd ∨ ∃ p, s.pc p = .unlinked fd

theorem Inv.init {s : State ι} (h : (system ι).init s) : Inv s := by
  obtain ⟨hidle, howner, hname⟩ := h
  constructor
  · simp [hidle, howner, Pc.lockOn]
  · rcases hname with ⟨hn, hi⟩ | ⟨hn, hi⟩ <;> simp [hn, hi]
  · simp [hidle, Pc.lockOn]
  · simp [hidle]
  · intro fd hfd _
    rcases hname with ⟨hn, hi⟩ | ⟨hn, hi⟩
    · omega
    · exact Or.inl (by rw [hn]; congr 1; omega)

omit [DecidableEq ι] in
/-- No two processes hold the lock of one inode. -/
theorem Inv.lock_unique {s : State ι} (h : Inv s) {p q : ι} {fd : Nat}
    (hp : (s.pc p).lockOn = some fd) (hq : (s.pc q).lockOn = some fd) : p = q := by
  have howner := (h.owner_iff fd p).mpr hp
  rw [(h.owner_iff fd q).mpr hq] at howner
  exact (Option.some.inj howner).symm

/-- Moving a process on without touching the lock file or the locks. -/
theorem Inv.setPc {s : State ι} (h : Inv s) {p : ι} {c : Pc}
    (hlock : c.lockOn = (s.pc p).lockOn)
    (hopened : ∀ fd, (c = .opened fd ∨ c = .waiting fd ∨ ∃ old, c = .reopened old fd) →
      fd < s.nextIno)
    (hlinked : ∀ fd, (c = .holding fd ∨ c = .deleting fd) → s.name = some fd ∧ s.size fd = 0)
    (hpending : ∀ fd, s.pc p ≠ .unlinked fd) : Inv (s.setPc p c) := by
  obtain ⟨howner, hname, hlt, hlink, htoken⟩ := h
  constructor <;> simp only [State.setPc, Function.update_apply]
  · grind
  · exact hname
  · intro q fd
    by_cases hq : q = p
    · subst hq
      have hheld := hlt q fd
      have hnew := hopened fd
      simp only [if_true, hlock]
      tauto
    · simpa [hq] using hlt q fd
  · grind
  · grind

/-- The lock of a free inode is granted. -/
theorem Inv.acquire {s : State ι} (h : Inv s) {p : ι} {fd : Nat}
    (hfree : s.owner fd = none) (hpc : s.pc p = .opened fd ∨ s.pc p = .waiting fd) :
    Inv (s.acquire p fd) := by
  obtain ⟨howner, hname, hlt, hlink, htoken⟩ := h
  have hunlocked : (s.pc p).lockOn = none := by
    rcases hpc with hpc | hpc <;> rw [hpc] <;> rfl
  constructor <;> simp only [State.acquire, Function.update_apply]
  · grind [Pc.lockOn]
  · exact hname
  · grind [Pc.lockOn]
  · grind [Pc.lockOn]
  · grind [Pc.lockOn]

/-- Closing a lock file gives up its lock; the process keeps at most the file it
has just reopened. -/
theorem Inv.release {s : State ι} (h : Inv s) {p : ι} {fd : Nat} {c : Pc}
    (hheld : (s.pc p).lockOn = some fd) (hpending : s.pc p ≠ .unlinked fd)
    (hc : c = .idle ∨ ∃ new, s.pc p = .reopened fd new ∧ c = .opened new) :
    Inv (s.release p fd c) := by
  have halone : ∀ q, q ≠ p → (s.pc q).lockOn ≠ some fd := fun q hq hlock =>
    hq (h.lock_unique hlock hheld)
  have hunlocked : c.lockOn = none := by
    rcases hc with rfl | ⟨new, -, rfl⟩ <;> rfl
  obtain ⟨howner, hname, hlt, hlink, htoken⟩ := h
  constructor <;> simp only [State.release, Function.update_apply]
  · grind
  · exact hname
  · grind [Pc.lockOn]
  · grind
  · grind [Pc.lockOn]

/-- Opening the name finds the file it leads to or makes an empty one. -/
theorem Inv.openName {s : State ι} (h : Inv s) {p : ι} {c : Nat → Pc}
    (hc : c = .opened ∧ s.pc p = .idle ∨ ∃ fd, s.pc p = .stale fd ∧ c = .reopened fd) :
    Inv (s.openName p c) := by
  have hlock : ∀ fd, (c fd).lockOn = (s.pc p).lockOn := by
    rcases hc with ⟨rfl, hpc⟩ | ⟨fd, hpc, rfl⟩ <;> intro _ <;> rw [hpc] <;> rfl
  unfold State.openName
  split
  · rename_i fd hfd
    have hlt := h.name_lt fd hfd
    refine h.setPc (hlock fd) ?_ ?_ ?_
    all_goals rcases hc with ⟨rfl, hpc⟩ | ⟨old, hpc, rfl⟩ <;> simp [hpc, hlt]
  · rename_i hnone
    obtain ⟨howner, hname, hlt, hlink, htoken⟩ := h
    constructor <;> simp only [Function.update_apply]
    · grind
    · grind
    · intro q fd hq
      by_cases hqp : q = p
      · subst hqp
        rw [if_pos rfl, hlock] at hq
        rcases hc with ⟨rfl, hpc⟩ | ⟨old, hpc, rfl⟩ <;> grind
      · have hfd := hlt q fd (by simpa [hqp] using hq)
        omega
    · intro q fd hq
      by_cases hqp : q = p
      · subst hqp
        rcases hc with ⟨rfl, -⟩ | ⟨old, -, rfl⟩ <;> simp at hq
      · have hfd := (hlink q fd (by simpa [hqp] using hq)).1
        rw [hnone] at hfd
        cases hfd
    · have hpending : ∀ fd, s.pc p ≠ .unlinked fd := by
        rcases hc with ⟨-, hpc⟩ | ⟨old, hpc, -⟩ <;> simp [hpc]
      grind

/-- Only the process that has checked its lock unlinks the name. -/
theorem Inv.unlink {s : State ι} (h : Inv s) {p : ι} {fd : Nat} (hpc : s.pc p = .deleting fd)
    (succeeds : Bool) :
    Inv (if succeeds then { s.setPc p (.unlinked fd) with name := none }
      else s.setPc p (.unlinked fd)) := by
  have hmine := h.linked p fd (Or.inr hpc)
  have hlock : (s.pc p).lockOn = some fd := by rw [hpc]; rfl
  cases succeeds with
  | false => exact h.setPc (by rw [hlock]; rfl) (by simp) (by simp) (by simp [hpc])
  | true =>
      have hunique := fun q => h.lock_unique (p := p) (q := q) hlock
      obtain ⟨howner, hname, hlt, hlink, htoken⟩ := h
      constructor <;> simp only [if_true, State.setPc, Function.update_apply]
      · grind [Pc.lockOn]
      · grind
      · grind [Pc.lockOn]
      · grind [Pc.lockOn]
      · grind

theorem Inv.writeToken {s : State ι} (h : Inv s) {p : ι} {fd : Nat}
    (hpc : s.pc p = .unlinked fd) :
    Inv { s.setPc p (.closing fd) with size := Function.update s.size fd 1 } := by
  have hlock : (s.pc p).lockOn = some fd := by rw [hpc]; rfl
  have hunique := fun q => h.lock_unique (p := p) (q := q) hlock
  obtain ⟨howner, hname, hlt, hlink, htoken⟩ := h
  constructor <;> simp only [State.setPc, Function.update_apply]
  · grind [Pc.lockOn]
  · grind
  · grind [Pc.lockOn]
  · grind [Pc.lockOn]
  · grind

/-- Every step of every process preserves the invariant. -/
theorem Inv.step {s s' : State ι} (h : Inv s) {p : ι} {e : Event}
    (hstep : step s p e = some s') : Inv s' := by
  cases e with
  | openLockFile =>
      simp only [PathLocks.step] at hstep
      split at hstep <;> cases hstep
      · rename_i hpc
        exact h.openName (Or.inl ⟨rfl, hpc⟩)
      · rename_i fd hpc
        exact h.openName (Or.inr ⟨fd, hpc, rfl⟩)
  | tryLock wait =>
      simp only [PathLocks.step] at hstep
      split at hstep
      · rename_i fd hpc
        have hlt := h.opened_lt p fd (Or.inl hpc)
        split at hstep
        · cases hstep
          exact h.acquire ‹_› (Or.inl hpc)
        split at hstep <;> cases hstep
        · exact h.setPc (by rw [hpc]; rfl) (by simp [hlt]) (by simp) (by simp [hpc])
        · exact h.setPc (by rw [hpc]; rfl) (by simp) (by simp) (by simp [hpc])
      · cases hstep
  | lockFile =>
      simp only [PathLocks.step] at hstep
      split at hstep
      · rename_i fd hpc
        split at hstep <;> cases hstep
        exact h.acquire ‹_› (Or.inr hpc)
      · cases hstep
  | fstat =>
      simp only [PathLocks.step] at hstep
      split at hstep
      · rename_i fd hpc
        have hlock : (s.pc p).lockOn = some fd := by rw [hpc]; rfl
        split at hstep <;> cases hstep
        · exact h.setPc (by rw [hpc]; rfl) (by simp) (by simp) (by simp [hpc])
        · rename_i hsize
          simp only [ne_eq, not_not] at hsize
          -- nobody else can be about to write the token: the lock is ours
          have hlinked : s.name = some fd := by
            rcases h.tokened fd (h.opened_lt p fd (by simp [hlock])) hsize with hname | ⟨q, hq⟩
            · exact hname
            · have heq := h.lock_unique hlock (q := q) (by rw [hq]; rfl)
              subst heq
              rw [hpc] at hq
              cases hq
          exact h.setPc (by rw [hpc]; rfl) (by simp) (by simp [hlinked, hsize]) (by simp [hpc])
      · cases hstep
  | closeStale =>
      simp only [PathLocks.step] at hstep
      split at hstep <;> cases hstep
      rename_i old new hpc
      exact h.release (by rw [hpc]; rfl) (by simp [hpc]) (Or.inr ⟨new, hpc, rfl⟩)
  | fail =>
      simp only [PathLocks.step] at hstep
      split at hstep <;> cases hstep
      · rename_i hpc
        exact h.setPc (by rw [hpc]; rfl) (by simp) (by simp) (by simp [hpc])
      · rename_i hpc
        exact h.setPc (by rw [hpc]; rfl) (by simp) (by simp) (by simp [hpc])
      all_goals
        rename_i hpc
        exact h.release (by rw [hpc]; rfl) (by simp [hpc]) (Or.inl rfl)
  | unlock deletePaths =>
      simp only [PathLocks.step] at hstep
      split at hstep <;> cases hstep
      rename_i fd hpc
      have hlinked := h.linked p fd (Or.inl hpc)
      cases deletePaths
      · exact h.setPc (by rw [hpc]; rfl) (by simp) (by simp) (by simp [hpc])
      · exact h.setPc (by rw [hpc]; rfl) (by simp) (by simp [hlinked]) (by simp [hpc])
  | unlink succeeds =>
      simp only [PathLocks.step] at hstep
      split at hstep <;> cases hstep
      rename_i fd hpc
      exact h.unlink hpc succeeds
  | writeToken =>
      simp only [PathLocks.step] at hstep
      split at hstep <;> cases hstep
      rename_i fd hpc
      exact h.writeToken hpc
  | close =>
      simp only [PathLocks.step] at hstep
      split at hstep <;> cases hstep
      rename_i fd hpc
      exact h.release (by rw [hpc]; rfl) (by simp [hpc]) (Or.inl rfl)

theorem Inv.reachable {s : State ι} (h : (system ι).Reachable s) : Inv s :=
  h.invariant (fun _ => Inv.init) fun _ _ _ hs hstep => hs.step hstep

omit [DecidableEq ι] in
/-- Two processes that hold the lock hold it on the one file the name leads to. -/
theorem Inv.holds_unique {s : State ι} (h : Inv s) {p q : ι} (hp : (s.pc p).Holds)
    (hq : (s.pc q).Holds) : p = q := by
  obtain ⟨fd, hp⟩ := hp
  obtain ⟨gd, hq⟩ := hq
  have hname := (h.linked p fd (Or.inl hp)).1
  rw [(h.linked q gd (Or.inl hq)).1, Option.some.injEq] at hname
  subst hname
  exact h.lock_unique (by rw [hp]; rfl) (by rw [hq]; rfl)

/-- Mutual exclusion: in every reachable state of any number of processes, at
most one is between a successful `lockPaths` and the start of its `unlock`. -/
theorem lockPaths_mutual_exclusion (s : State ι) (h : (system ι).Reachable s) (p q : ι)
    (hp : (s.pc p).Holds) (hq : (s.pc q).Holds) : p = q :=
  (Inv.reachable h).holds_unique hp hq

/-- The first of two processes takes the lock, and nobody else has it. -/
theorem lockPaths_mutual_exclusion_example :
    ∃ s : State Bool, (system Bool).Reachable s ∧ (s.pc true).Holds ∧
      ∀ q, (s.pc q).Holds → true = q := by
  let s₀ : State Bool := ⟨fun _ => .idle, none, fun _ => 0, fun _ => none, 0⟩
  let s₁ := s₀.openName true .opened
  let s₂ := s₁.acquire true 0
  let s₃ := s₂.setPc true (.holding 0)
  have hinit : (system Bool).Reachable s₀ :=
    .of_init ⟨fun _ => rfl, fun _ => rfl, Or.inl ⟨rfl, rfl⟩⟩
  have hopen : (system Bool).Reachable s₁ := hinit.step (l := (true, .openLockFile)) rfl
  have hlock : (system Bool).Reachable s₂ := hopen.step (l := (true, .tryLock false)) rfl
  have hstat : (system Bool).Reachable s₃ := hlock.step (l := (true, .fstat)) rfl
  exact ⟨s₃, hstat, ⟨0, rfl⟩, fun q hq => lockPaths_mutual_exclusion s₃ hstat true q ⟨0, rfl⟩ hq⟩

/-! ## The lock as its users see it -/

/-- What users of `PathLocks` rely on: the lock is free or held by one process,
taken only when free and released only by its holder. -/
inductive MutexStep : Option ι → Option ι → Prop
  | stay (m : Option ι) : MutexStep m m
  | lock (p : ι) : MutexStep none (some p)
  | unlock (p : ι) : MutexStep (some p) none

/-- `m` names the process that holds the lock in `s`, if any. -/
def HeldBy (s : State ι) (m : Option ι) : Prop := ∀ p, (s.pc p).Holds ↔ m = some p

/-- A step of one process leaves the others where they are. -/
theorem step_pc_of_ne {s s' : State ι} {p q : ι} {e : Event} (hstep : step s p e = some s')
    (hq : q ≠ p) : s'.pc q = s.pc q := by
  have hset : ∀ c, (s.setPc p c).pc q = s.pc q := fun c => Function.update_of_ne hq _ _
  have hacquire : ∀ fd, (s.acquire p fd).pc q = s.pc q := fun fd => Function.update_of_ne hq _ _
  have hrelease : ∀ fd c, (s.release p fd c).pc q = s.pc q :=
    fun fd c => Function.update_of_ne hq _ _
  have hopen : ∀ c, (s.openName p c).pc q = s.pc q := fun c => by
    unfold State.openName
    split
    · exact hset _
    · exact Function.update_of_ne hq _ _
  cases e <;> simp only [step] at hstep <;> grind

/-- Every step of the lock files is a step of the mutex. -/
theorem Inv.refines_mutex {s s' : State ι} (h : Inv s) {p : ι} {e : Event}
    (hstep : PathLocks.step s p e = some s') {m : Option ι} (hm : HeldBy s m) :
    ∃ m', HeldBy s' m' ∧ MutexStep m m' := by
  have hothers : ∀ q, q ≠ p → ((s'.pc q).Holds ↔ m = some q) := fun q hq => by
    rw [step_pc_of_ne hstep hq, hm q]
  by_cases hafter : (s'.pc p).Holds
  · have halone : ∀ q, (s'.pc q).Holds ↔ some p = some q := fun q =>
      ⟨fun hq => congrArg some ((h.step hstep).holds_unique hafter hq), fun hq => by
        rw [← Option.some.inj hq]; exact hafter⟩
    refine ⟨some p, halone, ?_⟩
    cases m with
    | none => exact .lock p
    | some q =>
        by_cases hq : q = p
        · subst hq; exact .stay _
        · have heq := (halone q).mp ((hothers q hq).mpr rfl)
          exact absurd (Option.some.inj heq).symm hq
  · by_cases hbefore : (s.pc p).Holds
    · have hmp := (hm p).mp hbefore
      subst hmp
      refine ⟨none, fun q => ?_, .unlock p⟩
      by_cases hq : q = p
      · subst hq; simp [hafter]
      · simp [hothers q hq, Ne.symm hq]
    · refine ⟨m, fun q => ?_, .stay m⟩
      by_cases hq : q = p
      · subst hq; simp [hafter, ← hm q, hbefore]
      · exact hothers q hq

end Step

end PathLocks
end Store
end Archinix
