import Archinix.Foundation.Sequential
import Archinix.Util.Serialise

/-!
# Lock wrappers

`lockFile`, `PathLocks` and `FdLock` of `pathlocks.cc`, with everything the calls they
make may answer.  The kernel's part is which descriptor is open on which lock file, and
what lock is held through it; the answers of a run are kept in their order.

`lockPaths` does not look at what the waiting `lockFile` returns, and `FdLock` does not
note a lock that was granted at once.  `unlock` stops at the first token it cannot write.
-/

namespace Archinix
namespace Store
namespace LockWrappers

open Foundation Util

/-! ## Calls -/

inductive LockType where
  | ltRead
  | ltWrite
  | ltNone
  deriving DecidableEq

/-- How a `flock` ends.  `pending` is any failure after which `checkInterrupt` throws. -/
inductive FlockOutcome where
  | granted
  | wouldBlock
  | eintr
  | failed
  | pending
  deriving DecidableEq

inductive WriteOutcome where
  | wrote (n : Nat)
  | eintr
  | wouldBlock
  | failed
  deriving DecidableEq

inductive LockOp where
  /-- Whether an interrupt is pending. -/
  | checkInterrupt
  /-- `open(path, O_CLOEXEC | O_RDWR | O_CREAT, 0600)`. -/
  | open (path : Bytes)
  | flock (fd : Nat) (type : LockType) (nonBlocking : Bool)
  /-- The size that `fstat` reports. -/
  | fstat (fd : Nat)
  | close (fd : Nat)
  | unlink (path : Bytes)
  | write (fd : Nat) (s : Bytes)
  | poll (fd : Nat)

/-- An exception: that of `checkInterrupt`, or any other. -/
inductive LockException where
  | interrupted
  | error (e : Error)
  deriving DecidableEq

@[reducible] def LockInterface : Interface where
  Op := LockOp
  Ret
    | .checkInterrupt => Bool
    | .open _ => Option Nat
    | .flock .. => FlockOutcome
    | .fstat _ => Option Nat
    | .close _ => Bool
    | .unlink _ => Bool
    | .write .. => WriteOutcome
    | .poll _ => Bool
  Task := Empty
  Err := LockException

/-- What a call has answered. -/
inductive Answer where
  | interrupt (pending : Bool)
  | opened (fd : Option Nat)
  | flock (outcome : FlockOutcome)
  | fstat (size : Option Nat)
  | closed (succeeds : Bool)
  | unlinked (succeeds : Bool)
  | write (outcome : WriteOutcome)
  | poll (succeeds : Bool)
  deriving DecidableEq

/-- What the kernel holds for the process, and the answers it has given. -/
structure Kernel where
  /-- The lock file that a descriptor is open on. -/
  file : Nat → Option Bytes
  /-- The lock held through a descriptor. -/
  lock : Nat → Option LockType
  /-- The lock files whose names were unlinked. -/
  unlinked : Bytes → Bool
  /-- The descriptors through which a token was written. -/
  token : Nat → Bool
  answers : List Answer

namespace Kernel

def record (k : Kernel) (a : Answer) : Kernel := { k with answers := k.answers ++ [a] }

def recordAll (k : Kernel) (as : List Answer) : Kernel := { k with answers := k.answers ++ as }

/-- A descriptor that was not in use. -/
def opened (k : Kernel) (fd : Nat) (path : Bytes) : Kernel :=
  { k with file := Function.update k.file fd (some path), lock := Function.update k.lock fd none }

def closed (k : Kernel) (fd : Nat) : Kernel :=
  { k with file := Function.update k.file fd none, lock := Function.update k.lock fd none }

def flocked (k : Kernel) (fd : Nat) (type : LockType) : Kernel :=
  { k with lock := Function.update k.lock fd (if type = .ltNone then none else some type) }

end Kernel

/-- A process with nothing open. -/
def idle : Kernel := ⟨fun _ => none, fun _ => none, fun _ => false, fun _ => false, []⟩

/-- What the calls do; their failures are free. -/
def exec : Exec LockInterface Kernel
  | .checkInterrupt, k, pending, k' => k' = k.record (.interrupt pending)
  | .open path, k, fd, k' =>
      match fd with
      | some fd => k.file fd = none ∧ k' = (k.opened fd path).record (.opened (some fd))
      | none => k' = k.record (.opened none)
  | .flock fd type _, k, outcome, k' =>
      -- giving up a lock never blocks
      (type = .ltNone → outcome ≠ .wouldBlock) ∧
      k' = (if outcome = .granted then k.flocked fd type else k).record (.flock outcome)
  | .fstat _, k, size, k' => k' = k.record (.fstat size)
  -- an error of `close` leaves no descriptor behind either
  | .close fd, k, succeeds, k' => k' = (k.closed fd).record (.closed succeeds)
  | .unlink path, k, succeeds, k' =>
      k' = { k with unlinked := Function.update k.unlinked path (succeeds || k.unlinked path) }.record
        (.unlinked succeeds)
  | .write fd s, k, outcome, k' =>
      match outcome with
      | .wrote n => n ≤ s.length ∧
          k' = { k with token := Function.update k.token fd (0 < n || k.token fd) }.record
            (.write (.wrote n))
      | outcome => k' = k.record (.write outcome)
  | .poll _, k, succeeds, k' => k' = k.record (.poll succeeds)

abbrev LockProg := Prog LockInterface

/-- A run that ends. -/
abbrev Runs {α : Type} (k : Kernel) (p : LockProg α) (r : Except LockException α) (k' : Kernel) : Prop :=
  Prog.Ends exec k p r k'

/-- The answer to a call, if it is one. -/
def Answer.to : Answer → (o : LockOp) → Option (LockInterface.Ret o)
  | .interrupt pending, .checkInterrupt => some pending
  | .opened fd, .open _ => some fd
  | .flock outcome, .flock .. => some outcome
  | .fstat size, .fstat _ => some size
  | .closed succeeds, .close _ => some succeeds
  | .unlinked succeeds, .unlink _ => some succeeds
  | .write outcome, .write .. => some outcome
  | .poll succeeds, .poll _ => some succeeds
  | _, _ => none

/-- What a call does that is answered so. -/
def perform : (o : LockOp) → Kernel → LockInterface.Ret o → Option Kernel
  | .checkInterrupt, k, pending => some (k.record (.interrupt pending))
  | .open path, k, some fd =>
      if k.file fd = none then some ((k.opened fd path).record (.opened (some fd))) else none
  | .open _, k, none => some (k.record (.opened none))
  | .flock fd type _, k, outcome =>
      if type = .ltNone ∧ outcome = .wouldBlock then none
      else some ((if outcome = .granted then k.flocked fd type else k).record (.flock outcome))
  | .fstat _, k, size => some (k.record (.fstat size))
  | .close fd, k, succeeds => some ((k.closed fd).record (.closed succeeds))
  | .unlink path, k, succeeds =>
      some ({ k with unlinked := Function.update k.unlinked path (succeeds || k.unlinked path) }.record
        (.unlinked succeeds))
  | .write fd s, k, .wrote n =>
      if n ≤ s.length then
        some ({ k with token := Function.update k.token fd (0 < n || k.token fd) }.record
          (.write (.wrote n)))
      else none
  | .write _ _, k, outcome => some (k.record (.write outcome))
  | .poll _, k, succeeds => some (k.record (.poll succeeds))

theorem exec_of_perform {o : LockOp} {k k' : Kernel} {x : LockInterface.Ret o}
    (h : perform o k x = some k') : exec o k x k' := by
  cases o with
  | «open» path =>
      cases x with
      | none => exact (Option.some.inj h).symm
      | some fd =>
          simp only [perform, Option.ite_none_right_eq_some, Option.some.injEq] at h
          exact ⟨h.1, h.2.symm⟩
  | flock fd type nonBlocking =>
      simp only [perform, Option.ite_none_left_eq_some, Option.some.injEq] at h
      exact ⟨fun htype hblock => h.1 ⟨htype, hblock⟩, h.2.symm⟩
  | write fd s =>
      cases x with
      | wrote n =>
          simp only [perform, Option.ite_none_right_eq_some, Option.some.injEq] at h
          exact ⟨h.1, h.2.symm⟩
      | eintr => exact (Option.some.inj h).symm
      | wouldBlock => exact (Option.some.inj h).symm
      | failed => exact (Option.some.inj h).symm
  | checkInterrupt => exact (Option.some.inj h).symm
  | fstat fd => exact (Option.some.inj h).symm
  | close fd => exact (Option.some.inj h).symm
  | unlink path => exact (Option.some.inj h).symm
  | poll fd => exact (Option.some.inj h).symm

/-- The run with these answers, if it ends with the last of them. -/
def play {α : Type} : LockProg α → Kernel → List Answer → Option (Except LockException α × Kernel)
  | .done r, k, [] => some (r, k)
  | .op o next, k, a :: as => do
      let x ← a.to o
      play (next x) (← perform o k x) as
  | _, _, _ => none

theorem runs_of_play {α : Type} {p : LockProg α} {k k' : Kernel} {as : List Answer}
    {r : Except LockException α} (h : play p k as = some (r, k')) : Runs k p r k' := by
  induction as generalizing p k with
  | nil =>
      cases p with
      | done r' =>
          cases h
          exact .refl _ _
      | _ => cases h
  | cons a as ih =>
      cases p with
      | op o next =>
          simp only [play, Option.bind_eq_bind, Option.bind_eq_some_iff] at h
          obtain ⟨x, -, k₁, hperform, hrest⟩ := h
          exact .op (exec_of_perform hperform) (ih hrest)
      | _ => cases h

/-- A run with these answers, and what is seen of the kernel after it. -/
theorem exists_run_of_play {α β : Type} {p : LockProg α} {k : Kernel} {r : Except LockException α}
    {b : β} (as : List Answer) (observe : Kernel → β)
    (hr : (play p k as).map Prod.fst = some r)
    (hobserve : (play p k as).map (fun s => observe s.2) = some b) :
    ∃ k', Runs k p r k' ∧ observe k' = b := by
  obtain ⟨⟨r', k'⟩, hplay, rfl⟩ := Option.map_eq_some_iff.mp hr
  rw [hplay] at hobserve
  exact ⟨k', runs_of_play hplay, Option.some.inj hobserve⟩

/-! ## Programs -/

def call (o : LockOp) : LockProg (LockInterface.Ret o) := @Prog.perform LockInterface o

def sysError {α : Type} (fmt : String) (args : List Bytes) : LockProg α :=
  throw (.error ⟨.error, fmt, args⟩)

def checkInterrupt : LockProg Unit := do
  if ← call .checkInterrupt then throw .interrupted

/-- `AutoCloseFD::close`. -/
def closeFd : Option Nat → LockProg Unit
  | none => pure ()
  | some fd => do
      if !(← call (.close fd)) then sysError "closing file descriptor %1%" [natStr fd]

/-- An exception passes the destructor of an `AutoCloseFD`. -/
def autoClose {α : Type} (fd : Option Nat) (p : LockProg α) : LockProg α := do
  match ← p.attempt with
  | .ok a => pure a
  | .error e => do
      let _ ← (closeFd fd).attempt
      throw e

def openLockFile (path : Bytes) : LockProg Nat := do
  match ← call (.open path) with
  | some fd => pure fd
  | none => sysError "opening lock file %1%" [path]

/-- The loop of `lockFile` without `wait`. -/
def tryLock (desc : Nat) (type : LockType) : Nat → LockProg Bool
  | 0 => .spin
  | depth + 1 => do
      match ← call (.flock desc type true) with
      | .granted => pure true
      | .pending => throw .interrupted
      | .wouldBlock => pure false
      | .eintr => tryLock desc type depth
      | .failed => sysError "acquiring/releasing lock" []

/-- The loop of `lockFile` with `wait`, of which no round is a second one. -/
def waitLock (desc : Nat) (type : LockType) : LockProg Bool := do
  match ← call (.flock desc type false) with
  | .granted => pure true
  | .pending => throw .interrupted
  | .eintr => pure false
  | .wouldBlock | .failed => sysError "acquiring/releasing lock" []

def lockFile (depth : Nat) (desc : Nat) (type : LockType) (wait : Bool) : LockProg Bool :=
  if wait then waitLock desc type else tryLock desc type depth

def fstat (fd : Nat) : LockProg Nat := do
  match ← call (.fstat fd) with
  | some size => pure size
  | none => sysError "getting status of %s" [natStr fd]

/-- `write`, which begins again when it was interrupted, inside `retryOnBlock`. -/
def write (fd : Nat) (s : Bytes) : Nat → LockProg Nat
  | 0 => .spin
  | depth + 1 => do
      checkInterrupt
      match ← call (.write fd s) with
      | .wrote n => pure n
      | .eintr => write fd s depth
      | .wouldBlock =>
          if ← call (.poll fd) then write fd s depth
          else sysError "poll on file descriptor failed" []
      | .failed => sysError "write of %1% bytes" [natStr s.length]

def writeFull (fd : Nat) : Nat → Bytes → LockProg Unit
  | 0, _ => .spin
  | depth + 1, s =>
      if s = [] then pure ()
      else do
        checkInterrupt
        let res ← write fd s depth
        writeFull fd depth (s.drop res)

def deleteLockFile (depth : Nat) (path : Bytes) (desc : Nat) : LockProg Unit := do
  let _ ← call (.unlink path)
  writeFull desc depth (str "d")

/-- One round of `PathLocks::unlock`; an error of `close` is printed. -/
def unlockOne (depth : Nat) (deletePaths : Bool) (i : Nat × Bytes) : LockProg Unit := do
  if deletePaths then deleteLockFile depth i.2 i.1
  let _ ← call (.close i.1)

/-- `PathLocks::unlock`, with the members of the object. -/
def unlock (depth : Nat) (deletePaths : Bool) (fds : List (Nat × Bytes)) : LockProg Unit :=
  fds.forM (unlockOne depth deletePaths)

/-- `PathLocks::~PathLocks`. -/
def destroyPathLocks (depth : Nat) (deletePaths : Bool) (fds : List (Nat × Bytes)) : LockProg Unit := do
  let _ ← (unlock depth deletePaths fds).attempt

def lockPathOf (path : Bytes) : Bytes := path ++ str ".lock"

/-- What a round of the loop comes to. -/
inductive Round where
  /-- The lock would block, and the caller does not wait. -/
  | blocked
  /-- The lock file has become stale. -/
  | stale
  | fresh
  deriving DecidableEq

/-- `fd = openLockFile(lockPath, true)`, which closes the stale file that `fd` was. -/
def reopen (path : Bytes) (old : Option Nat) : LockProg Nat :=
  autoClose old do
    let fd ← openLockFile path
    autoClose (some fd) (closeFd old)
    pure fd

/-- The rest of the round. -/
def lockRound (depth : Nat) (fd : Nat) (wait : Bool) : LockProg Round :=
  autoClose (some fd) do
    let locked ← lockFile depth fd .ltWrite false
    if !locked && !wait then pure Round.blocked
    else do
      if !locked then let _ ← lockFile depth fd .ltWrite true
      let size ← fstat fd
      pure (if size ≠ 0 then Round.stale else Round.fresh)

/-- The `while (1)` of `lockPaths`, with the descriptor of the round before: the lock file
that is open at its end, and whether it is to be kept. -/
def acquire (path : Bytes) (wait : Bool) : Nat → Option Nat → LockProg (Nat × Bool)
  | 0, _ => .spin
  | depth + 1, old => do
      let fd ← reopen path old
      match ← lockRound depth fd wait with
      | .blocked => pure (fd, false)
      | .stale => acquire path wait depth (some fd)
      | .fresh => pure (fd, true)

/-- The loop of `PathLocks::lockPaths`: what it returns, and `fds`. -/
def lockPaths (depth : Nat) (deletePaths wait : Bool) :
    List Bytes → List (Nat × Bytes) → LockProg (Bool × List (Nat × Bytes))
  | [], fds => pure (true, fds)
  | path :: paths, fds => do
      checkInterrupt
      let (fd, keep) ← acquire (lockPathOf path) wait depth none
      if keep then lockPaths depth deletePaths wait paths (fds ++ [(fd, lockPathOf path)])
      else do
        autoClose (some fd) (unlock depth deletePaths fds)
        let _ ← (closeFd (some fd)).attempt
        pure (false, [])

/-- `FdLock::FdLock`: the flag `acquired`. -/
def fdLock (depth : Nat) (desc : Nat) (lockType : LockType) (wait : Bool) : LockProg Bool := do
  if wait then
    if !(← lockFile depth desc lockType false) then lockFile depth desc lockType true
    else pure false
  else lockFile depth desc lockType false

/-- `FdLock::~FdLock`. -/
def destroyFdLock (depth : Nat) (desc : Nat) (acquired : Bool) : LockProg Unit := do
  if acquired then let _ ← lockFile depth desc .ltNone false

/-! ## What a lock comes to -/

namespace Kernel

variable (k : Kernel) (as bs : List Answer) (fd : Nat)

@[simp] theorem record_eq (a : Answer) : k.record a = k.recordAll [a] := rfl

@[simp] theorem recordAll_recordAll : (k.recordAll as).recordAll bs = k.recordAll (as ++ bs) := by
  simp [recordAll]

@[simp] theorem recordAll_file : (k.recordAll as).file = k.file := rfl

@[simp] theorem recordAll_lock : (k.recordAll as).lock = k.lock := rfl

@[simp] theorem recordAll_token : (k.recordAll as).token = k.token := rfl

@[simp] theorem recordAll_unlinked : (k.recordAll as).unlinked = k.unlinked := rfl

@[simp] theorem closed_answers : (k.closed fd).answers = k.answers := rfl

@[simp] theorem closed_token : (k.closed fd).token = k.token := rfl

@[simp] theorem recordAll_answers : (k.recordAll as).answers = k.answers ++ as := rfl

@[simp] theorem flocked_recordAll (type : LockType) :
    (k.recordAll as).flocked fd type = (k.flocked fd type).recordAll as := rfl

@[simp] theorem flocked_file (type : LockType) : (k.flocked fd type).file = k.file := rfl

@[simp] theorem flocked_answers (type : LockType) : (k.flocked fd type).answers = k.answers := rfl

end Kernel

section Lock

variable {k : Kernel} {desc : Nat} {type : LockType} {depth : Nat}

/-- The loop that does not wait: any number of interrupted attempts, then one that counts. -/
theorem tryLock_spec : (tryLock desc type depth).IfReturns exec (fun locked k' =>
    (locked = false → type ≠ .ltNone) ∧ ∃ n, k' = if locked then
        (k.flocked desc type).recordAll (List.replicate n (.flock .eintr) ++ [.flock .granted])
      else k.recordAll (List.replicate n (.flock .eintr) ++ [.flock .wouldBlock])) k := by
  induction depth generalizing k with
  | zero => exact Prog.ifReturns_spin
  | succ depth ih =>
      rw [tryLock, Prog.bind_def, Prog.ifReturns_bind, call, Prog.ifReturns_perform]
      rintro outcome k' ⟨hblock, rfl⟩
      cases outcome with
      | granted => exact Prog.ifReturns_ok.mpr ⟨by simp, 0, rfl⟩
      | wouldBlock => exact Prog.ifReturns_ok.mpr ⟨fun _ htype => hblock htype rfl, 0, rfl⟩
      | pending => exact Prog.ifReturns_error
      | failed => exact Prog.ifReturns_error
      | eintr =>
          apply ih.mono
          rintro locked k' ⟨htype, n, rfl⟩
          refine ⟨htype, n + 1, ?_⟩
          cases locked <;> simp [List.replicate_succ]

/-- The one that waits. -/
theorem waitLock_spec : (waitLock desc type).IfReturns exec (fun locked k' =>
    k' = if locked then (k.flocked desc type).recordAll [.flock .granted]
      else k.recordAll [.flock .eintr]) k := by
  rw [waitLock, Prog.bind_def, Prog.ifReturns_bind, call, Prog.ifReturns_perform]
  rintro outcome k' ⟨-, rfl⟩
  cases outcome with
  | granted => exact Prog.ifReturns_ok.mpr rfl
  | wouldBlock => exact Prog.ifReturns_error
  | pending => exact Prog.ifReturns_error
  | failed => exact Prog.ifReturns_error
  | eintr => exact Prog.ifReturns_ok.mpr rfl

end Lock

/-! ## `FdLock` -/

section FdLock

variable {k k' : Kernel} {desc : Nat} {lockType : LockType} {wait acquired : Bool} {depth : Nat}

theorem flocked_lock (h : lockType ≠ .ltNone) : (k.flocked desc lockType).lock desc = some lockType := by
  simp [Kernel.flocked, h]

/-- The flag tells the truth, unless the lock was granted before there was need to wait. -/
theorem fdLock_spec (hlock : lockType ≠ .ltNone) (hfree : k.lock desc = none) (hstart : k.answers = []) :
    (fdLock depth desc lockType wait).IfReturns exec (fun acquired k' =>
      (acquired = true ∧ k'.lock desc = some lockType ∧
        (wait = true → .flock .wouldBlock ∈ k'.answers)) ∨
      (acquired = false ∧ k'.lock desc = none ∧ (wait = true → .flock .wouldBlock ∈ k'.answers)) ∨
      (acquired = false ∧ k'.lock desc = some lockType ∧ wait = true ∧
        .flock .wouldBlock ∉ k'.answers)) k := by
  rw [fdLock]
  cases wait with
  | false =>
      apply tryLock_spec.mono
      rintro locked k' ⟨-, n, rfl⟩
      cases locked with
      | true => exact Or.inl ⟨rfl, by simpa using flocked_lock hlock, by simp⟩
      | false => exact Or.inr (Or.inl ⟨rfl, by simpa using hfree, by simp⟩)
  | true =>
      rw [if_pos rfl, Prog.bind_def, Prog.ifReturns_bind]
      apply tryLock_spec.mono
      rintro locked k' ⟨-, n, rfl⟩
      cases locked with
      | true =>
          -- the first attempt was granted: nobody sets the flag
          refine Prog.ifReturns_ok.mpr (Or.inr (Or.inr ⟨rfl, ?_, rfl, ?_⟩))
          · simpa using flocked_lock hlock
          · simp [hstart, List.mem_replicate]
      | false =>
          apply waitLock_spec.mono
          rintro locked k' rfl
          cases locked with
          | true => exact Or.inl ⟨rfl, by simpa using flocked_lock hlock, by simp⟩
          | false => exact Or.inr (Or.inl ⟨rfl, by simpa using hfree, by simp⟩)

/-- The destructor gives up the lock if the flag is set, and else does nothing. -/
theorem destroyFdLock_spec : (destroyFdLock depth desc acquired).IfReturns exec (fun _ k' =>
    if acquired then k'.lock desc = none else k' = k) k := by
  rw [destroyFdLock]
  cases acquired with
  | false => exact Prog.ifReturns_ok.mpr rfl
  | true =>
      rw [if_pos rfl, Prog.bind_def, Prog.ifReturns_bind]
      apply tryLock_spec.mono
      rintro locked k' ⟨htype, n, rfl⟩
      cases locked with
      | true => exact Prog.ifReturns_ok.mpr (by simp [Kernel.flocked])
      | false => exact absurd rfl (htype rfl)

/-- The flag is set if and only if the lock is held, and the destructor leaves no lock. -/
def FdLockTruthful (desc : Nat) (lockType : LockType) (acquired : Bool) (k : Kernel) : Prop :=
  (acquired = true ↔ k.lock desc = some lockType) ∧
    ∀ depth k', Runs k (destroyFdLock depth desc acquired) (.ok ()) k' → k'.lock desc = none

/-- An `FdLock` that waits tells the truth if its first attempt would have blocked. -/
theorem fdLockTruthful_iff (hlock : lockType ≠ .ltNone) (hfree : k.lock desc = none)
    (hstart : k.answers = []) (hrun : Runs k (fdLock depth desc lockType wait) (.ok acquired) k') :
    FdLockTruthful desc lockType acquired k' ↔ (wait = true → .flock .wouldBlock ∈ k'.answers) := by
  have hdestroyed : ∀ depth k'', Runs k' (destroyFdLock depth desc acquired) (.ok ()) k'' →
      if acquired then k''.lock desc = none else k'' = k' := by
    intro depth k'' hrun'
    exact destroyFdLock_spec.ends hrun'
  rcases (fdLock_spec hlock hfree hstart).ends hrun with ⟨rfl, hheld, hwait⟩ | ⟨rfl, hnone, hwait⟩ |
    ⟨rfl, hheld, hwait, hmem⟩
  · refine iff_of_true ⟨by simp [hheld], fun depth k'' hrun' => ?_⟩ hwait
    exact hdestroyed depth k'' hrun'
  · refine iff_of_true ⟨by simp [hnone], fun depth k'' hrun' => ?_⟩ hwait
    rw [hdestroyed depth k'' hrun']
    exact hnone
  · apply iff_of_false
    · intro h
      have := h.1.mpr hheld
      cases this
    · exact fun h => hmem (h hwait)

end FdLock

/-! ## `lockPaths` -/

/-- An attempt that would block, a wait that is interrupted, and a lock file that is still
there. -/
def Interrupted : List Answer := [.flock .wouldBlock, .flock .eintr, .fstat (some 0)]

/-- What stands before an answer that is not in a pattern, and what follows it. -/
theorem infix_append_cons {pattern l r : List Answer} {a : Answer} (ha : a ∉ pattern) :
    pattern <:+: l ++ a :: r ↔ pattern <:+: l ∨ pattern <:+: r := by
  constructor
  · rintro ⟨before, after, h⟩
    rcases List.append_eq_append_iff.mp h with ⟨as, hl, -⟩ | ⟨bs, hbs, hr⟩
    · exact Or.inl ⟨before, as, hl.symm⟩
    · cases bs with
      | nil => exact Or.inl ⟨before, [], by simpa using hbs⟩
      | cons b bs =>
          obtain ⟨rfl, hrest⟩ := List.cons.inj hr
          -- the answer lies before the pattern
          rcases List.append_eq_append_iff.mp hbs with ⟨cs, -, hpattern⟩ | ⟨ds, -, hds⟩
          · exact absurd (by simp [hpattern]) ha
          · cases ds with
            | nil =>
                rw [List.nil_append] at hds
                exact absurd (hds ▸ List.mem_cons_self) ha
            | cons d ds =>
                obtain ⟨-, hpattern⟩ := List.cons.inj hds
                exact Or.inr ⟨ds, after, by rw [hrest, hpattern]; rfl⟩
  · rintro (h | h)
    · exact h.trans (List.infix_append_left)
    · exact (h.trans (List.infix_cons List.infix_rfl)).trans List.infix_append_right

/-- Only the wait that was interrupted leaves the answers that say so. -/
theorem interrupted_infix_iff (n : Nat) (tail : List Answer) :
    Interrupted <:+: List.replicate n (.flock .eintr) ++ tail ↔ Interrupted <:+: tail := by
  induction n with
  | zero => rfl
  | succ n ih =>
      rw [List.replicate_succ, List.cons_append, List.infix_cons_iff, ih]
      simp [Interrupted]

/-! ## `unlock` -/

section Unlock

variable {k k' k'' : Kernel} {fd : Nat} {depth : Nat} {as bs : List Answer}

/-- The answers after which the writing of a token throws. -/
def TokenFails (a : Answer) : Prop := a = .interrupt true ∨ a = .write .failed ∨ a = .poll false

/-- What writing to lock files leaves as it was. -/
structure Wrote (k k' : Kernel) (as : List Answer) : Prop where
  file : k'.file = k.file
  unlinked : k'.unlinked = k.unlinked
  token : ∀ fd, k.token fd = true → k'.token fd = true
  answers : k'.answers = k.answers ++ as

theorem Wrote.record (k : Kernel) (as : List Answer) : Wrote k (k.recordAll as) as :=
  ⟨rfl, rfl, fun _ h => h, rfl⟩

theorem Wrote.trans (h : Wrote k k' as) (h' : Wrote k' k'' bs) : Wrote k k'' (as ++ bs) :=
  ⟨h'.file.trans h.file, h'.unlinked.trans h.unlinked, fun fd hfd => h'.token fd (h.token fd hfd),
    by rw [h'.answers, h.answers, List.append_assoc]⟩

/-- What comes of a write that ended so: it throws exactly after an answer that says so. -/
def Written {α : Type} (Q : α → Kernel → Prop) (k : Kernel) : Except LockException α → Kernel → Prop :=
  fun r k' => ∃ as, Wrote k k' as ∧
    match r with
    | .ok a => (∀ answer ∈ as, ¬ TokenFails answer) ∧ Q a k'
    | .error _ => ∃ answer ∈ as, TokenFails answer

/-- A part of the way. -/
theorem Written.after {α : Type} {Q : α → Kernel → Prop} {r : Except LockException α} (h : Wrote k k' as)
    (hsilent : ∀ answer ∈ as, ¬ TokenFails answer) (hr : Written Q k' r k'') : Written Q k r k'' := by
  obtain ⟨bs, hwrote, hbs⟩ := hr
  refine ⟨as ++ bs, h.trans hwrote, ?_⟩
  cases r with
  | ok a =>
      refine ⟨fun answer hanswer => ?_, hbs.2⟩
      rcases List.mem_append.mp hanswer with h | h
      · exact hsilent answer h
      · exact hbs.1 answer h
  | error e =>
      obtain ⟨answer, hanswer, hfails⟩ := hbs
      exact ⟨answer, List.mem_append_right as hanswer, hfails⟩

theorem wp_checkInterrupt {Q : Except LockException Unit → Kernel → Prop} :
    checkInterrupt.wp exec True Q k ↔
      Q (.ok ()) (k.recordAll [.interrupt false]) ∧
        Q (.error .interrupted) (k.recordAll [.interrupt true]) := by
  constructor
  · exact fun h => ⟨h false _ rfl, h true _ rfl⟩
  · rintro ⟨hgo, hstop⟩ pending k' rfl
    cases pending with
    | false => exact hgo
    | true => exact hstop

theorem write_spec (s : Bytes) : (write fd s depth).wp exec True (Written (fun n k' =>
    n ≤ s.length ∧ (0 < n → k'.token fd = true)) k) k := by
  induction depth generalizing k with
  | zero => trivial
  | succ depth ih =>
      rw [write, Prog.bind_def, Prog.wp_bind, wp_checkInterrupt]
      refine ⟨?_, _, Wrote.record k _, .interrupt true, by simp, Or.inl rfl⟩
      have hgo : ∀ answer ∈ [Answer.interrupt false], ¬ TokenFails answer := by simp [TokenFails]
      intro outcome k' hwrite
      cases outcome with
      | wrote n =>
          obtain ⟨hn, rfl⟩ := hwrite
          refine Written.after (Wrote.record k _) hgo ⟨_, ⟨rfl, rfl, ?_, rfl⟩, by simp [TokenFails], hn, ?_⟩
          · intro fd' hfd'
            by_cases hne : fd' = fd
            · subst hne
              simpa using Or.inr hfd'
            · simpa [Function.update_of_ne hne] using hfd'
          · intro hpos
            simp [hpos]
      | eintr =>
          obtain rfl := hwrite
          have hagain : ∀ answer ∈ [Answer.interrupt false, .write .eintr], ¬ TokenFails answer := by
            simp [TokenFails]
          exact Prog.wp_mono ih fun r k' =>
            Written.after ((Wrote.record k _).trans (Wrote.record _ _)) hagain
      | wouldBlock =>
          obtain rfl := hwrite
          rintro ready k' rfl
          cases ready with
          | false =>
              exact ⟨_, ((Wrote.record k _).trans (Wrote.record _ _)).trans (Wrote.record _ _),
                .poll false, by simp, Or.inr (Or.inr rfl)⟩
          | true =>
              have hagain : ∀ answer ∈ [Answer.interrupt false, .write .wouldBlock, .poll true],
                  ¬ TokenFails answer := by simp [TokenFails]
              exact Prog.wp_mono ih fun r k' => Written.after
                (((Wrote.record k _).trans (Wrote.record _ _)).trans (Wrote.record _ _)) hagain
      | failed =>
          obtain rfl := hwrite
          exact ⟨_, (Wrote.record k _).trans (Wrote.record _ _), .write .failed, by simp,
            Or.inr (Or.inl rfl)⟩

theorem writeFull_spec {s : Bytes} : (writeFull fd depth s).wp exec True (Written (fun _ k' =>
    s ≠ [] → k'.token fd = true) k) k := by
  induction depth generalizing k s with
  | zero => trivial
  | succ depth ih =>
      rw [writeFull]
      by_cases hs : s = []
      · rw [if_pos hs]
        exact ⟨[], ⟨rfl, rfl, fun _ h => h, by simp⟩, by simp, fun hne => absurd hs hne⟩
      · rw [if_neg hs, Prog.bind_def, Prog.wp_bind, wp_checkInterrupt]
        refine ⟨?_, _, Wrote.record k _, .interrupt true, by simp, Or.inl rfl⟩
        have hgo : ∀ answer ∈ [Answer.interrupt false], ¬ TokenFails answer := by simp [TokenFails]
        rw [Prog.next_ok, Prog.bind_def, Prog.wp_bind]
        refine Prog.wp_mono (write_spec s) fun r k₁ hwrite => ?_
        cases r with
        | error e => exact Written.after (Wrote.record k _) hgo hwrite
        | ok res =>
            obtain ⟨as, hwrote, hsilent, hres, htoken⟩ := hwrite
            refine Prog.wp_mono ih fun r k₂ hrest => ?_
            refine Written.after (Wrote.record k _) hgo (Written.after hwrote hsilent ?_)
            obtain ⟨bs, hwrote', hbs⟩ := hrest
            refine ⟨bs, hwrote', ?_⟩
            cases r with
            | error e => exact hbs
            | ok _ =>
                refine ⟨hbs.1, fun _ => ?_⟩
                -- what was not written now is written by the rest of the loop
                by_cases hpos : 0 < res
                · exact hwrote'.token fd (htoken hpos)
                · have hzero : res = 0 := by omega
                  apply hbs.2
                  rw [hzero]
                  exact hs

/-- What `unlock` does, or what it has done when it throws: the descriptors of which it
was told, and nothing else, may be closed. -/
structure Unlocking (deletePaths : Bool) (fds : List (Nat × Bytes)) (k : Kernel)
    (r : Except LockException Unit) (k' : Kernel) (as : List Answer) : Prop where
  answers : k'.answers = k.answers ++ as
  token : ∀ fd, k.token fd = true → k'.token fd = true
  other : ∀ fd, (∀ i ∈ fds, i.1 ≠ fd) → k'.file fd = k.file fd
  returned : r = .ok () → (∀ answer ∈ as, ¬ TokenFails answer) ∧ (∀ i ∈ fds, k'.file i.1 = none) ∧
    if deletePaths then ∀ i ∈ fds, k'.token i.1 = true else k'.unlinked = k.unlinked
  thrown : r ≠ .ok () → (∃ answer ∈ as, TokenFails answer) ∧
    ∃ i ∈ fds, k'.file i.1 = k.file i.1

theorem unlockOne_spec (deletePaths : Bool) (i : Nat × Bytes) :
    (unlockOne depth deletePaths i).wp exec True
      (fun r k' => ∃ as, Unlocking deletePaths [i] k r k' as) k := by
  cases deletePaths with
  | false =>
      rintro succeeds k' rfl
      refine ⟨[.closed succeeds], rfl, fun _ h => h, fun fd hfd => ?_, fun _ => ⟨?_, ?_, rfl⟩, ?_⟩
      · have hne : fd ≠ i.1 := fun h => hfd i (by simp) h.symm
        simp [Kernel.closed, hne]
      · simp [TokenFails]
      · simp [Kernel.closed]
      · exact fun h => absurd rfl h
  | true =>
      rw [unlockOne, if_pos rfl, Prog.bind_def, Prog.wp_bind, deleteLockFile, Prog.bind_def, Prog.wp_bind]
      intro unlinked k₁ hunlink
      obtain rfl := hunlink
      have hsilent : ¬ TokenFails (.unlinked unlinked) := by simp [TokenFails]
      show (writeFull i.1 depth (str "d")).wp exec True _ _
      refine Prog.wp_mono writeFull_spec fun r k₂ hwritten => ?_
      obtain ⟨as, hwrote, has⟩ := hwritten
      have htoken := hwrote.token
      have hanswers := hwrote.answers
      have hfile := hwrote.file
      cases r with
      | error e =>
          obtain ⟨answer, hanswer, hfails⟩ := has
          exact ⟨.unlinked unlinked :: as, by simpa using hanswers, htoken, fun fd _ => congrFun hfile fd,
            fun h => (by cases h), fun _ => ⟨⟨answer, List.mem_cons_of_mem _ hanswer, hfails⟩, i,
              by simp, congrFun hfile i.1⟩⟩
      | ok _ =>
          intro closed k₃ hclose
          obtain rfl := hclose
          refine ⟨.unlinked unlinked :: (as ++ [.closed closed]), ?_, htoken, fun fd hfd => ?_,
            fun _ => ⟨fun answer hanswer => ?_, ?_, ?_⟩, fun h => absurd rfl h⟩
          · simp [hanswers]
          · have hne : fd ≠ i.1 := fun h => hfd i (by simp) h.symm
            simpa [Kernel.closed, hne] using congrFun hfile fd
          · simp only [List.mem_cons, List.mem_append, List.not_mem_nil, or_false] at hanswer
            rcases hanswer with rfl | hanswer | rfl
            · exact hsilent
            · exact has.1 answer hanswer
            · simp [TokenFails]
          · simp [Kernel.closed]
          · simpa using has.2 (by decide)

/-- The loop ends, or stops at the first token that cannot be written. -/
theorem unlock_spec (deletePaths : Bool) {fds : List (Nat × Bytes)} (hfds : (fds.map Prod.fst).Nodup) :
    (unlock depth deletePaths fds).wp exec True
      (fun r k' => ∃ as, Unlocking deletePaths fds k r k' as) k := by
  induction fds generalizing k with
  | nil =>
      refine ⟨[], by simp, fun _ h => h, fun _ _ => rfl, fun _ => ⟨by simp, by simp, ?_⟩,
        fun h => absurd rfl h⟩
      cases deletePaths <;> simp
  | cons i fds ih =>
      rw [List.map_cons, List.nodup_cons] at hfds
      have hi : ∀ j ∈ fds, j.1 ≠ i.1 := fun j hj heq =>
        hfds.1 (heq ▸ List.mem_map_of_mem hj)
      rw [unlock, List.forM_eq_forM, List.forM_cons, Prog.bind_def, Prog.wp_bind]
      refine Prog.wp_mono (unlockOne_spec deletePaths i) fun r k₁ hone => ?_
      obtain ⟨as, hone⟩ := hone
      cases r with
      | error e =>
          refine ⟨as, hone.answers, hone.token, fun fd hfd => ?_, fun h => (by cases h), fun h => ?_⟩
          · exact hone.other fd fun j hj => hfd j (by simp_all)
          · obtain ⟨hfails, j, hj, hkept⟩ := hone.thrown h
            exact ⟨hfails, j, by simp_all, hkept⟩
      | ok _ =>
          obtain ⟨hsilent, hclosed, hdone⟩ := hone.returned rfl
          refine Prog.wp_mono (ih hfds.2) fun r k₂ hrest => ?_
          obtain ⟨bs, hrest⟩ := hrest
          refine ⟨as ++ bs, ?_, fun fd h => hrest.token fd (hone.token fd h), fun fd hfd => ?_,
            fun h => ?_, fun h => ?_⟩
          · rw [hrest.answers, hone.answers, List.append_assoc]
          · rw [hrest.other fd fun j hj => hfd j (List.mem_cons_of_mem _ hj),
              hone.other fd fun j hj => hfd j (by simp_all)]
          · obtain ⟨hsilent', hclosed', hdone'⟩ := hrest.returned h
            refine ⟨fun answer hanswer => ?_, fun j hj => ?_, ?_⟩
            · exact (List.mem_append.mp hanswer).elim (hsilent answer) (hsilent' answer)
            · rcases List.mem_cons.mp hj with rfl | hj
              · rw [hrest.other j.1 hi]
                exact hclosed j (by simp)
              · exact hclosed' j hj
            · cases deletePaths with
              | false => exact Eq.trans hdone' hdone
              | true =>
                  intro j hj
                  rcases List.mem_cons.mp hj with rfl | hj
                  · exact hrest.token j.1 (hdone j (by simp))
                  · exact hdone' j hj
          · obtain ⟨⟨answer, hanswer, hfails⟩, j, hj, hkept⟩ := hrest.thrown h
            refine ⟨⟨answer, List.mem_append_right as hanswer, hfails⟩, j, List.mem_cons_of_mem _ hj, ?_⟩
            rw [hkept, hone.other j.1 (by simpa using (hi j hj).symm)]

/-- Every descriptor was closed, and no lock file was unlinked without its token. -/
def Released (fds : List (Nat × Bytes)) (k : Kernel) : Prop :=
  ∀ i ∈ fds, k.file i.1 = none ∧ (k.unlinked i.2 = true → k.token i.1 = true)

/-- The locks of a `PathLocks` whose `unlock` is about to run. -/
structure Held (fds : List (Nat × Bytes)) (k : Kernel) : Prop where
  distinct : (fds.map Prod.fst).Nodup
  opened : ∀ i ∈ fds, k.file i.1 = some i.2
  linked : ∀ i ∈ fds, k.unlinked i.2 = false
  answers : k.answers = []

/-- The locks are released if and only if no token was refused. -/
theorem Unlocking.released_iff {deletePaths : Bool} {fds : List (Nat × Bytes)}
    {r : Except LockException Unit} (hheld : Held fds k) (h : Unlocking deletePaths fds k r k' as) :
    Released fds k' ↔ ∀ answer ∈ k'.answers, ¬ TokenFails answer := by
  rw [h.answers, hheld.answers, List.nil_append]
  by_cases hr : r = .ok ()
  · obtain ⟨hsilent, hclosed, hdone⟩ := h.returned hr
    refine iff_of_true (fun i hi => ⟨hclosed i hi, fun hunlinked => ?_⟩) hsilent
    cases deletePaths with
    | true => exact hdone i hi
    | false =>
        have hsame : k'.unlinked = k.unlinked := hdone
        rw [hsame, hheld.linked i hi] at hunlinked
        cases hunlinked
  · obtain ⟨⟨answer, hanswer, hfails⟩, i, hi, hkept⟩ := h.thrown hr
    apply iff_of_false
    · intro hreleased
      rw [(hreleased i hi).1, hheld.opened i hi] at hkept
      cases hkept
    · exact fun hsilent => hsilent answer hanswer hfails

/-- `unlock` and the destructor release the locks if and only if every token is written:
the loop ends at the first one that is not, and the destructor does not go on with it. -/
theorem locks_released_iff (deletePaths : Bool) (fds : List (Nat × Bytes)) (hheld : Held fds k) :
    (∀ r, Runs k (unlock depth deletePaths fds) r k' →
      (Released fds k' ↔ ∀ answer ∈ k'.answers, ¬ TokenFails answer)) ∧
    ∀ r, Runs k (destroyPathLocks depth deletePaths fds) r k' →
      (Released fds k' ↔ ∀ answer ∈ k'.answers, ¬ TokenFails answer) := by
  constructor
  · intro r hrun
    obtain ⟨as, hunlocking⟩ := (unlock_spec deletePaths hheld.distinct).ends hrun
    exact hunlocking.released_iff hheld
  · intro r hrun
    have hspec : (destroyPathLocks depth deletePaths fds).wp exec True
        (fun _ k' => ∃ r as, Unlocking deletePaths fds k r k' as) k := by
      rw [destroyPathLocks, Prog.bind_def, Prog.wp_bind, Prog.wp_attempt]
      exact Prog.wp_mono (unlock_spec deletePaths hheld.distinct) fun r k' h => ⟨r, h⟩
    obtain ⟨r', as, hunlocking⟩ := hspec.ends hrun
    exact hunlocking.released_iff hheld

/-- A lock that is held through the descriptor 3. -/
def holding : Kernel :=
  { idle with
    file := Function.update idle.file 3 (some (str "/p.lock"))
    lock := Function.update idle.lock 3 (some .ltWrite) }

theorem holding_held : Held [(3, str "/p.lock")] holding :=
  ⟨by simp, by simp [holding], by simp [holding, idle], rfl⟩

/-- One lock is released with its token. -/
theorem locks_released_written :
    ∃ k', Runs holding (destroyPathLocks 2 true [(3, str "/p.lock")]) (.ok ()) k' ∧
      Released [(3, str "/p.lock")] k' := by
  have hdestroyed : ∃ k', Runs holding (destroyPathLocks 2 true [(3, str "/p.lock")]) (.ok ()) k' ∧
      k'.answers = [.unlinked true, .interrupt false, .interrupt false, .write (.wrote 1),
        .closed true] :=
    exists_run_of_play [.unlinked true, .interrupt false, .interrupt false, .write (.wrote 1),
      .closed true] Kernel.answers (by decide +kernel) (by decide +kernel)
  obtain ⟨k', hrun, hanswers⟩ := hdestroyed
  refine ⟨k', hrun, ((locks_released_iff true _ holding_held).2 _ hrun).mpr ?_⟩
  rw [hanswers]
  simp [TokenFails]

/-- The disk is full: the lock file is gone without its token, and stays open. -/
theorem locks_not_released :
    ∃ k', Runs holding (destroyPathLocks 2 true [(3, str "/p.lock")]) (.ok ()) k' ∧
      ¬ Released [(3, str "/p.lock")] k' := by
  have hdestroyed : ∃ k', Runs holding (destroyPathLocks 2 true [(3, str "/p.lock")]) (.ok ()) k' ∧
      (k'.file 3, k'.unlinked (str "/p.lock"), k'.token 3) = (some (str "/p.lock"), true, false) :=
    exists_run_of_play [.unlinked true, .interrupt false, .interrupt false, .write .failed]
      (fun k => (k.file 3, k.unlinked (str "/p.lock"), k.token 3)) (by decide +kernel)
      (by decide +kernel)
  obtain ⟨k', hrun, hafter⟩ := hdestroyed
  refine ⟨k', hrun, fun h => ?_⟩
  rw [(h (3, str "/p.lock") (by simp)).1] at hafter
  cases hafter

end Unlock

section LockPaths

variable {k k' : Kernel} {fd : Nat} {path : Bytes} {wait : Bool} {depth : Nat}

/-- A program inside the scope of an `AutoCloseFD` returns what it returns. -/
theorem ifReturns_autoClose {α : Type} {fd : Option Nat} {p : LockProg α} {R : α → Kernel → Prop}
    (h : p.IfReturns exec R k) : (autoClose fd p).IfReturns exec R k := by
  rw [autoClose, Prog.bind_def]
  apply Prog.IfReturns.attempt_bind
  refine Prog.wp_mono h fun r k' hr => ?_
  cases r with
  | ok a => exact Prog.ifReturns_ok.mpr (hr a rfl)
  | error e =>
      cases fd with
      | none => exact Prog.ifReturns_error
      | some fd =>
          intro succeeds k'' _
          cases succeeds <;> exact Prog.ifReturns_error

/-- Nothing is changed but one descriptor and one that was not in use. -/
def Frame (k k' : Kernel) (old : Option Nat) (fd : Nat) : Prop :=
  ∀ fd', k.file fd' ≠ none → old ≠ some fd' →
    fd' ≠ fd ∧ k'.file fd' = k.file fd' ∧ k'.lock fd' = k.lock fd'

theorem reopen_spec {old : Option Nat} (hold : ∀ fd, old = some fd → k.file fd ≠ none) :
    (reopen path old).IfReturns exec (fun fd k' =>
      k'.file fd = some path ∧ k'.lock fd = none ∧ Frame k k' old fd ∧
      ∃ as, k'.answers = k.answers ++ .opened (some fd) :: as ∧
        ∀ bs, Interrupted <:+: as ++ bs ↔ Interrupted <:+: bs) k := by
  apply ifReturns_autoClose
  rw [Prog.bind_def, Prog.ifReturns_bind, openLockFile, Prog.bind_def, Prog.ifReturns_bind, call,
    Prog.ifReturns_perform]
  rintro (- | fd) k' hopen
  · exact Prog.ifReturns_error
  · obtain ⟨hfresh, rfl⟩ := hopen
    refine Prog.ifReturns_ok.mpr ?_
    rw [Prog.bind_def, Prog.ifReturns_bind]
    apply ifReturns_autoClose
    have hframe : ∀ fd', k.file fd' ≠ none → fd' ≠ fd := by
      rintro fd' hfd' rfl
      exact hfd' hfresh
    cases old with
    | none =>
        refine Prog.ifReturns_ok.mpr (Prog.ifReturns_ok.mpr ⟨?_, ?_, fun fd' hfd' _ => ?_, [], ?_, ?_⟩)
        · simp [Kernel.opened]
        · simp [Kernel.opened]
        · simp [Kernel.opened, hframe fd' hfd']
        · simp [Kernel.opened]
        · simp
    | some old =>
        have hne := hframe old (hold old rfl)
        intro succeeds k' hclose
        obtain rfl := hclose
        cases succeeds with
        | false => exact Prog.ifReturns_error
        | true =>
            refine Prog.ifReturns_ok.mpr (Prog.ifReturns_ok.mpr
              ⟨?_, ?_, fun fd' hfd' hold' => ?_, [.closed true], ?_, ?_⟩)
            · simp [Kernel.opened, Kernel.closed, Function.update_of_ne hne.symm]
            · simp [Kernel.opened, Kernel.closed, Function.update_of_ne hne.symm]
            · have hne' : fd' ≠ old := fun heq => hold' (by rw [heq])
              simp [Kernel.opened, Kernel.closed, hframe fd' hfd', hne']
            · simp [Kernel.opened, Kernel.closed]
            · intro bs
              simp [Interrupted, List.infix_cons_iff]

/-- A lock file that is kept is locked, unless the wait for its lock was interrupted. -/
theorem lockRound_spec (hfree : k.lock fd = none) :
    (lockRound depth fd wait).IfReturns exec (fun round k' =>
      k'.file = k.file ∧ (∀ fd', fd' ≠ fd → k'.lock fd' = k.lock fd') ∧
      ∃ as, k'.answers = k.answers ++ as ∧
        match round with
        | .blocked => True
        | .stale => ¬ Interrupted <:+: as
        | .fresh => k'.lock fd = some .ltWrite ↔ ¬ Interrupted <:+: as) k := by
  have hother : ∀ fd', fd' ≠ fd → (k.flocked fd .ltWrite).lock fd' = k.lock fd' :=
    fun fd' hfd' => Function.update_of_ne hfd' _ _
  have hheld : (k.flocked fd .ltWrite).lock fd = some .ltWrite := by simp [Kernel.flocked]
  apply ifReturns_autoClose
  rw [Prog.bind_def, Prog.ifReturns_bind]
  apply tryLock_spec.mono
  rintro locked k' ⟨-, n, rfl⟩
  cases locked with
  | true =>
      rintro (- | size) k' hstat
      · exact Prog.ifReturns_error
      · obtain rfl := hstat
        refine Prog.ifReturns_ok.mpr ⟨rfl, hother, List.replicate n (.flock .eintr) ++
          [.flock .granted, .fstat (some size)], by simp, ?_⟩
        rw [interrupted_infix_iff]
        by_cases hsize : size = 0 <;> simp [hsize, hheld, Interrupted, List.infix_cons_iff]
  | false =>
      cases wait with
      | false => exact Prog.ifReturns_ok.mpr ⟨rfl, fun _ _ => rfl, _, rfl, trivial⟩
      | true =>
          show Prog.IfReturns exec ((waitLock fd .ltWrite).bind fun _ => _) _ _
          rw [Prog.ifReturns_bind]
          apply waitLock_spec.mono
          -- what it returns is not looked at
          rintro locked k' rfl
          rintro (- | size) k' hstat
          · exact Prog.ifReturns_error
          · obtain rfl := hstat
            cases locked with
            | true =>
                refine Prog.ifReturns_ok.mpr ⟨rfl, hother, List.replicate n (.flock .eintr) ++
                  [.flock .wouldBlock, .flock .granted, .fstat (some size)], by simp, ?_⟩
                rw [interrupted_infix_iff]
                by_cases hsize : size = 0 <;> simp [hsize, hheld, Interrupted, List.infix_cons_iff]
            | false =>
                refine Prog.ifReturns_ok.mpr ⟨rfl, fun _ _ => rfl, List.replicate n (.flock .eintr) ++
                  [.flock .wouldBlock, .flock .eintr, .fstat (some size)], by simp, ?_⟩
                rw [interrupted_infix_iff]
                by_cases hsize : size = 0
                · simp [hsize, hfree, Interrupted]
                · simp [hsize, Ne.symm hsize, Interrupted, List.infix_cons_iff]

/-- The rounds before the last one leave nothing. -/
theorem acquire_spec {old : Option Nat} (hold : ∀ fd, old = some fd → k.file fd ≠ none) :
    (acquire path wait depth old).IfReturns exec (fun r k' => r.2 = true →
      k'.file r.1 = some path ∧ Frame k k' old r.1 ∧
      ∃ fd as, k'.answers = k.answers ++ .opened (some fd) :: as ∧
        (k'.lock r.1 = some .ltWrite ↔ ¬ Interrupted <:+: as)) k := by
  induction depth generalizing k old with
  | zero => exact Prog.ifReturns_spin
  | succ depth ih =>
      rw [acquire, Prog.bind_def, Prog.ifReturns_bind]
      apply (reopen_spec hold).mono
      rintro fd k₁ ⟨hfile, hfree, hframe, as, hanswers, hsilent⟩
      rw [Prog.bind_def, Prog.ifReturns_bind]
      apply (lockRound_spec hfree).mono
      rintro round k₂ ⟨hfile₂, hlock₂, bs, hanswers₂, hround⟩
      have hframe₂ : Frame k k₂ old fd := by
        intro fd' hfd' hold'
        obtain ⟨hne, hsame, hlock⟩ := hframe fd' hfd' hold'
        exact ⟨hne, by rw [hfile₂, hsame], by rw [hlock₂ fd' hne, hlock]⟩
      cases round with
      | blocked => exact Prog.ifReturns_ok.mpr (by simp)
      | fresh =>
          refine Prog.ifReturns_ok.mpr fun _ => ⟨by rw [hfile₂, hfile], hframe₂, fd, as ++ bs, ?_, ?_⟩
          · rw [hanswers₂, hanswers, List.append_assoc, List.cons_append]
          · rw [hsilent]
            exact hround
      | stale =>
          refine (@ih _ (some fd) ?_).mono ?_
          · rintro fd' hfd'
            cases hfd'
            rw [hfile₂, hfile]
            simp
          · rintro r k₃ hr hkeep
            obtain ⟨hfile₃, hframe₃, fd', cs, hanswers₃, hlock₃⟩ := hr hkeep
            refine ⟨hfile₃, ?_, fd, as ++ bs ++ .opened (some fd') :: cs, ?_, ?_⟩
            · intro fd'' hfd'' hold''
              obtain ⟨hne, hsame, hlock⟩ := hframe₂ fd'' hfd'' hold''
              obtain ⟨hne', hsame', hlock'⟩ := hframe₃ fd'' (by rw [hsame]; exact hfd'')
                (by simpa using hne.symm)
              exact ⟨hne', by rw [hsame', hsame], by rw [hlock', hlock]⟩
            · rw [hanswers₃, hanswers₂, hanswers]
              simp
            · have hstale : ¬ Interrupted <:+: bs := hround
              rw [hlock₃, infix_append_cons (by simp [Interrupted]), hsilent]
              simp [hstale]

/-- The descriptors kept are open on their lock files, and locked unless a wait was
interrupted. -/
def Kept (fds : List (Nat × Bytes)) (k : Kernel) : Prop :=
  (∀ i ∈ fds, k.file i.1 = some i.2) ∧
    ((∀ i ∈ fds, k.lock i.1 = some .ltWrite) ↔ ¬ Interrupted <:+: k.answers)

theorem checkInterrupt_spec :
    checkInterrupt.IfReturns exec (fun _ k' => k' = k.recordAll [.interrupt false]) k := by
  rw [checkInterrupt, Prog.bind_def, Prog.ifReturns_bind, call, Prog.ifReturns_perform]
  rintro pending k' rfl
  cases pending with
  | true => exact Prog.ifReturns_error
  | false => exact Prog.ifReturns_ok.mpr rfl

/-- One more lock file. -/
theorem Kept.concat {fds : List (Nat × Bytes)} {as : List Answer} {fd₀ : Option Nat} (h : Kept fds k)
    (hfile : k'.file fd = some path) (hframe : Frame k k' none fd)
    (hanswers : k'.answers = k.answers ++ .interrupt false :: .opened fd₀ :: as)
    (hlock : k'.lock fd = some .ltWrite ↔ ¬ Interrupted <:+: as) : Kept (fds ++ [(fd, path)]) k' := by
  have hold : ∀ i ∈ fds, k'.file i.1 = k.file i.1 ∧ k'.lock i.1 = k.lock i.1 := by
    intro i hi
    obtain ⟨-, hsame, hlock⟩ := hframe i.1 (by rw [h.1 i hi]; simp) (by simp)
    exact ⟨hsame, hlock⟩
  constructor
  · intro i hi
    rcases List.mem_append.mp hi with hi | hi
    · rw [(hold i hi).1, h.1 i hi]
    · rw [List.mem_singleton.mp hi, hfile]
  · have hlocks : (∀ i ∈ fds, k'.lock i.1 = some .ltWrite) ↔ ∀ i ∈ fds, k.lock i.1 = some .ltWrite :=
      forall₂_congr fun i hi => by rw [(hold i hi).2]
    have hinfix : Interrupted <:+: .opened fd₀ :: as ↔ Interrupted <:+: as := by
      simp [Interrupted, List.infix_cons_iff]
    rw [hanswers, infix_append_cons (by simp [Interrupted]), hinfix, not_or, ← h.2, ← hlock, ← hlocks]
    simp [or_imp, forall_and]

theorem lockPaths_spec {deletePaths : Bool} {paths : List Bytes} {fds : List (Nat × Bytes)}
    (h : Kept fds k) :
    (lockPaths depth deletePaths wait paths fds).IfReturns exec (fun r k' => r.1 = true →
      r.2.map Prod.snd = fds.map Prod.snd ++ paths.map lockPathOf ∧ Kept r.2 k') k := by
  induction paths generalizing fds k with
  | nil => exact Prog.ifReturns_ok.mpr fun _ => ⟨by simp, h⟩
  | cons path paths ih =>
      rw [lockPaths, Prog.bind_def, Prog.ifReturns_bind]
      apply checkInterrupt_spec.mono
      rintro _ k₁ rfl
      rw [Prog.bind_def, Prog.ifReturns_bind]
      apply (acquire_spec (by simp)).mono
      rintro ⟨fd, keep⟩ k₂ hkept
      cases keep with
      | false =>
          have hunlock : (unlock depth deletePaths fds).IfReturns exec (fun _ _ => True) k₂ :=
            Prog.wp_forM (fun _ _ => True) (fun i rest k₃ _ => Prog.wp_mono (unlockOne_spec deletePaths i)
              fun r k₄ _ => by cases r <;> simp) (fun _ _ _ _ => trivial) trivial
          show Prog.IfReturns exec ((autoClose (some fd) (unlock depth deletePaths fds)).bind _) _ _
          rw [Prog.ifReturns_bind]
          apply (ifReturns_autoClose hunlock).mono
          rintro _ k₃ -
          intro succeeds k₄ hclose
          cases succeeds <;> exact Prog.ifReturns_ok.mpr (by simp)
      | true =>
          obtain ⟨hfile, hframe, fd₀, as, hanswers, hlock⟩ := hkept rfl
          have hnext : Kept (fds ++ [(fd, lockPathOf path)]) k₂ :=
            h.concat hfile hframe (by simpa using hanswers) hlock
          apply (ih hnext).mono
          rintro r k₃ hr hreturned
          obtain ⟨hpaths, hkept'⟩ := hr hreturned
          exact ⟨by simpa using hpaths, hkept'⟩

/-- Every listed path's lock file is exclusively locked. -/
def AllLocked (paths : List Bytes) (fds : List (Nat × Bytes)) (k : Kernel) : Prop :=
  ∀ path ∈ paths, ∃ fd, (fd, lockPathOf path) ∈ fds ∧ k.file fd = some (lockPathOf path) ∧
    k.lock fd = some .ltWrite

/-- The lock file of a path is kept once. -/
theorem allLocked_iff {paths : List Bytes} {fds : List (Nat × Bytes)} (hpaths : paths.Nodup)
    (hfds : fds.map Prod.snd = paths.map lockPathOf) (h : ∀ i ∈ fds, k.file i.1 = some i.2) :
    AllLocked paths fds k ↔ ∀ i ∈ fds, k.lock i.1 = some .ltWrite := by
  have hinj : Function.Injective lockPathOf := fun _ _ heq => List.append_cancel_right heq
  have honce : (fds.map Prod.snd).Nodup := hfds ▸ hpaths.map hinj
  constructor
  · intro hall i hi
    have hmem : i.2 ∈ paths.map lockPathOf := hfds ▸ List.mem_map_of_mem hi
    obtain ⟨path, hpath, hname⟩ := List.mem_map.mp hmem
    obtain ⟨fd, hfd, -, hlock⟩ := hall path hpath
    have hsame : (fd, lockPathOf path) = i := List.inj_on_of_nodup_map honce hfd hi hname
    rw [← hsame]
    exact hlock
  · intro hlocks path hpath
    have hmem : lockPathOf path ∈ fds.map Prod.snd := hfds ▸ List.mem_map_of_mem hpath
    obtain ⟨i, hi, hname⟩ := List.mem_map.mp hmem
    exact ⟨i.1, hname ▸ hi, by rw [h i hi, hname], hlocks i hi⟩

theorem lockPaths_allLocked_iff {deletePaths : Bool} {paths : List Bytes} {fds : List (Nat × Bytes)}
    (hpaths : paths.Nodup) (hstart : k.answers = [])
    (hrun : Runs k (lockPaths depth deletePaths wait paths []) (.ok (true, fds)) k') :
    AllLocked paths fds k' ↔ ¬ Interrupted <:+: k'.answers := by
  have hkept : Kept [] k := ⟨by simp, by simp [hstart, Interrupted]⟩
  obtain ⟨hfds, hopen, hlocks⟩ := (lockPaths_spec hkept).ends hrun rfl
  rw [allLocked_iff hpaths (by simpa using hfds) hopen, hlocks]

end LockPaths

/-- The wrappers report the truth if and only if no waiting `flock` of `lockPaths` was
interrupted before the lock file was found to be still there, and the first attempt of an
`FdLock` that is willing to wait was not granted. -/
theorem lock_wrappers_truthful_iff (depth : Nat) (wait : Bool) (k : Kernel) (hstart : k.answers = []) :
    (∀ (deletePaths : Bool) (paths : List Bytes) (fds : List (Nat × Bytes)) (k' : Kernel), paths.Nodup →
      Runs k (lockPaths depth deletePaths wait paths []) (.ok (true, fds)) k' →
      (AllLocked paths fds k' ↔ ¬ Interrupted <:+: k'.answers)) ∧
    ∀ (desc : Nat) (lockType : LockType) (acquired : Bool) (k' : Kernel), lockType ≠ .ltNone →
      k.lock desc = none → Runs k (fdLock depth desc lockType wait) (.ok acquired) k' →
      (FdLockTruthful desc lockType acquired k' ↔ (wait = true → .flock .wouldBlock ∈ k'.answers)) :=
  ⟨fun _ _ _ _ hpaths hrun => lockPaths_allLocked_iff hpaths hstart hrun,
    fun _ _ _ _ hlock hfree hrun => fdLockTruthful_iff hlock hfree hstart hrun⟩

/-- Locks that are free, and one that has to be waited for. -/
theorem lock_wrappers_truthful_granted :
    (∃ k', Runs idle (lockPaths 2 false true [str "/p"] []) (.ok (true, [(3, str "/p.lock")])) k' ∧
      AllLocked [str "/p"] [(3, str "/p.lock")] k') ∧
    ∃ k', Runs idle (fdLock 1 3 .ltWrite true) (.ok true) k' ∧ FdLockTruthful 3 .ltWrite true k' := by
  have hlocked : ∃ k', Runs idle (lockPaths 2 false true [str "/p"] [])
      (.ok (true, [(3, str "/p.lock")])) k' ∧
      k'.answers = [.interrupt false, .opened (some 3), .flock .granted, .fstat (some 0)] :=
    exists_run_of_play [.interrupt false, .opened (some 3), .flock .granted, .fstat (some 0)]
      Kernel.answers (by decide +kernel) (by decide +kernel)
  have hacquired : ∃ k', Runs idle (fdLock 1 3 .ltWrite true) (.ok true) k' ∧
      k'.answers = [.flock .wouldBlock, .flock .granted] :=
    exists_run_of_play [.flock .wouldBlock, .flock .granted] Kernel.answers (by decide +kernel) (by decide +kernel)
  obtain ⟨k₁, hrun₁, hanswers₁⟩ := hlocked
  obtain ⟨k₂, hrun₂, hanswers₂⟩ := hacquired
  refine ⟨⟨k₁, hrun₁, ((lock_wrappers_truthful_iff 2 true idle rfl).1 false _ _ k₁ (by simp) hrun₁).mpr ?_⟩,
    ⟨k₂, hrun₂, ((lock_wrappers_truthful_iff 1 true idle rfl).2 3 _ _ k₂ (by decide) rfl hrun₂).mpr ?_⟩⟩
  · rw [hanswers₁]
    decide
  · rw [hanswers₂]
    decide

/-- A wait that is interrupted, and a lock that is free. -/
theorem lock_wrappers_lie :
    (∃ k', Runs idle (lockPaths 2 false true [str "/p"] []) (.ok (true, [(3, str "/p.lock")])) k' ∧
      ¬ AllLocked [str "/p"] [(3, str "/p.lock")] k') ∧
    ∃ k', Runs idle (fdLock 1 3 .ltWrite true) (.ok false) k' ∧
      ¬ FdLockTruthful 3 .ltWrite false k' := by
  have hlocked : ∃ k', Runs idle (lockPaths 2 false true [str "/p"] [])
      (.ok (true, [(3, str "/p.lock")])) k' ∧ k'.lock 3 = none :=
    exists_run_of_play [.interrupt false, .opened (some 3), .flock .wouldBlock, .flock .eintr,
      .fstat (some 0)] (fun k => k.lock 3) (by decide +kernel) (by decide +kernel)
  have hacquired : ∃ k', Runs idle (fdLock 1 3 .ltWrite true) (.ok false) k' ∧
      k'.lock 3 = some .ltWrite :=
    exists_run_of_play [.flock .granted] (fun k => k.lock 3) (by decide +kernel) (by decide +kernel)
  obtain ⟨k₁, hrun₁, hlock₁⟩ := hlocked
  obtain ⟨k₂, hrun₂, hlock₂⟩ := hacquired
  refine ⟨⟨k₁, hrun₁, fun h => ?_⟩, ⟨k₂, hrun₂, fun h => ?_⟩⟩
  · obtain ⟨fd, hfd, -, hlock⟩ := h (str "/p") (by simp)
    obtain rfl : fd = 3 := congrArg Prod.fst (List.mem_singleton.mp hfd)
    rw [hlock₁] at hlock
    cases hlock
  · cases h.1.mpr hlock₂

end LockWrappers
end Store
end Archinix
