import Archinix.Foundation.Sequential
import Archinix.Host.PosixSourceAccessor
import Archinix.Store.Database

/-!
# What the store asks of its surroundings

The operations from which the functions of the library are put together: system
calls, database transactions, locks, and the check for an interrupt, each of
which may fail.  An `Environment` says which failures may happen; `exec` is the
meaning of the operations on the file system and the database.
-/

namespace Archinix
namespace Store

open Foundation Util Host

/-- The exceptions handlers tell apart. -/
inductive Exception where
  | error (e : Error)
  /-- `SystemError` and `SysError`. -/
  | systemError (code : Errno) (e : Error)
  | filesystemError (code : Errno)
  | interrupted
  deriving DecidableEq

/-- `throw SysError(fmt, args)`. -/
def sysError (fmt : String) (args : List Bytes) (code : Errno) : Exception :=
  .systemError code ⟨.error, fmt, args⟩

inductive Op where
  | sys (c : Call)
  /-- Whether an interrupt is pending. -/
  | checkInterrupt
  /-- `flock(fd, LOCK_EX)` on the file or directory opened at `p`, without
  `LOCK_NB` if the caller is willing to `wait`; false if it was interrupted or
  would have had to wait. -/
  | flock (p : Path) (wait : Bool)
  /-- The same with `LOCK_SH`. -/
  | flockShared (p : Path) (wait : Bool)
  /-- `close` of the lock file open at `fd`, which ends the lock. -/
  | closeLock (fd : Nat)
  /-- `umask`, read and set back. -/
  | umask
  /-- Digits for a name nobody has used: of the process, a counter or `rand`. -/
  | uniqueSuffix
  /-- `dirGrantsDefaultAcl`. -/
  | dirGrantsDefaultAcl (p : Path)
  | isValidPath (path : StorePath)
  | queryAllValidPaths
  | queryReferrers (path : StorePath)
  /-- `queryPathInfoUnchecked`. -/
  | queryPathInfo (path : StorePath)
  | updatePathInfo (info : ValidPathInfo)
  /-- The transaction of `registerValidPath`; `contentAddressed` is
  `info.isContentAddressed`. -/
  | registerValidPath (info : ValidPathInfo) (contentAddressed : Bool)
  | invalidatePathChecked (path : StorePath)
  /-- `dumpPath(p, sink)`: what the sink is given, and how it ends. -/
  | dumpPath (p : Path)

namespace Op

@[reducible] def Ret : Op → Type
  | sys c => Except Errno c.Val
  | checkInterrupt => Bool
  | flock _ _ => Except Errno Bool
  | flockShared _ _ => Except Errno Bool
  | closeLock _ => Unit
  | umask => Mode
  | uniqueSuffix => Bytes
  | dirGrantsDefaultAcl _ => Bool
  | isValidPath _ => Except Error Bool
  | queryAllValidPaths => Except Error (List StorePath)
  | queryReferrers _ => Except Error (List StorePath)
  | queryPathInfo _ => Except Error (Option ValidPathInfo)
  | updatePathInfo _ => Except Error Unit
  | registerValidPath _ _ => Except Error Unit
  | invalidatePathChecked _ => Except Error Unit
  | dumpPath _ => Bytes × Except Exception Unit

end Op

/-- Operations, results and exceptions of the library. -/
@[reducible] def StoreInterface : Interface where
  Op := Op
  Ret := Op.Ret
  Task := Empty
  Err := Exception

/-- A function of the library. -/
abbrev Action := Prog StoreInterface

/-- What the functions of the library act on. -/
structure World where
  fs : FileSystem
  db : Database

/-- The settings of a store that the modelled functions read. -/
structure LocalStoreConfig extends StoreDirConfig where
  rootDir : Path
  ignoreGcDeleteFailure : Bool

namespace LocalStoreConfig

variable (config : LocalStoreConfig)

def stateDir : Path := config.rootDir ++ [str "nix", str "var", str "nix"]

def realStoreDir : Path := config.rootDir ++ [str "nix", str "store"]

def dbDir : Path := config.stateDir ++ [str "db"]

def linksDir : Path := config.realStoreDir ++ [str ".links"]

def reservedPath : Path := config.dbDir ++ [str "reserved"]

def gcRootsDir : Path := config.stateDir ++ [str "gcroots"]

def gcLockPath : Path := config.stateDir ++ [str "gc.lock"]

def toRealPath (path : StorePath) : Path := config.realStoreDir ++ [path.baseName]

end LocalStoreConfig

/-- The file mode creation mask, and which operations may fail. -/
structure Environment where
  umask : Mode
  faults : Faults
  /-- A database statement may fail. -/
  dbFails : Prop
  /-- A lock may be refused. -/
  lockFails : Prop
  /-- An interrupt may be pending. -/
  interrupts : Prop

/-- Nothing fails. -/
def Environment.reliable (umask : Mode) : Environment :=
  ⟨umask, fun _ _ => False, False, False, False⟩

/-- No operation fails. -/
structure Environment.Reliable (env : Environment) : Prop where
  faults : ∀ c e, ¬ env.faults c e
  dbFails : ¬ env.dbFails
  lockFails : ¬ env.lockFails
  interrupts : ¬ env.interrupts

theorem Environment.reliable_reliable (umask : Mode) : (Environment.reliable umask).Reliable :=
  ⟨fun _ _ => id, id, id, id⟩

/-- The program ended normally, in `Q`, or something failed on the way. -/
def Normally {α : Type} (env : Environment) (Q : α → World → Prop) : Except Exception α → World → Prop
  | .ok a, w => Q a w
  | .error _, _ => ¬ env.Reliable

section Exec

variable (env : Environment) (config : LocalStoreConfig)

/-- A transaction: done, or rolled back with the exception it throws. -/
def Transaction (run : Database → Except Error Database) (w : World) (x : Except Error Unit)
    (w' : World) : Prop :=
  (∃ db, run w.db = .ok db ∧ x = .ok () ∧ w' = { w with db := db }) ∨
  (∃ e, run w.db = .error e ∧ x = .error e ∧ w' = w) ∨
  (env.dbFails ∧ ∃ e : Error, e.cls = .sqliteError ∧ x = .error e ∧ w' = w)

/-- A query: its answer, or a failure of the database. -/
def Query {α : Type} (answer : Except Error α → Prop) (x : Except Error α) : Prop :=
  answer x ∨ (env.dbFails ∧ ∃ e : Error, e.cls = .sqliteError ∧ x = .error e)

/-- What a dump may give: the archive, or a beginning of it when a call fails or an
interrupt comes. -/
inductive Dump (fs : FileSystem) (p : Path) : Bytes × Except Exception Unit → Prop
  | run (kernel : Kernel) : Dump fs p
      ((Host.dumpPath fs kernel p).emitted, (Host.dumpPath fs kernel p).result.mapError .error)
  | fault (kernel : Kernel) {c : Call} {code : Errno} {e : Error} {written : Bytes}
      (hread : c.ReadOnly) (hfault : env.faults c code)
      (hwritten : written <+: (Host.dumpPath fs kernel p).emitted) :
      Dump fs p (written, .error (.systemError code e))
  | interrupt (kernel : Kernel) {written : Bytes} (h : env.interrupts)
      (hwritten : written <+: (Host.dumpPath fs kernel p).emitted) :
      Dump fs p (written, .error .interrupted)

/-- What the operations do. -/
def exec : Exec StoreInterface World
  | .sys c, w, x, w' => ∃ fs, Outcome env.faults env.umask w.fs c x fs ∧ w' = { w with fs := fs }
  | .checkInterrupt, w, x, w' => (x = true → env.interrupts) ∧ w' = w
  | .flock _ _, w, x, w' => ((∃ e, x = .error e) → env.lockFails) ∧ w' = w
  | .flockShared _ _, w, x, w' => ((∃ e, x = .error e) → env.lockFails) ∧ w' = w
  | .closeLock _, w, _, w' => w' = w
  | .umask, w, x, w' => x = env.umask ∧ w' = w
  | .uniqueSuffix, w, x, w' => x ≠ [] ∧ (47 : UInt8) ∉ x ∧ w' = w
  | .dirGrantsDefaultAcl _, w, _, w' => w' = w
  | .isValidPath path, w, x, w' =>
      (x = .ok (w.db.isValidPath_ path) ∨
        (env.dbFails ∧ ∃ e : Error, e.cls = .sqliteError ∧ x = .error e)) ∧ w' = w
  | .queryAllValidPaths, w, x, w' =>
      Query env (fun x => ∃ l, x = .ok l ∧ l.Perm w.db.queryAllValidPaths) x ∧ w' = w
  | .queryReferrers path, w, x, w' =>
      Query env (fun x => ∃ l, x = .ok l ∧ l.Perm (w.db.queryReferrers path)) x ∧ w' = w
  | .queryPathInfo path, w, x, w' =>
      Query env (· = w.db.queryPathInfoInternal config.toStoreDirConfig path) x ∧ w' = w
  | .updatePathInfo info, w, x, w' => Transaction env (fun db => .ok (db.updatePathInfo info)) w x w'
  | .registerValidPath info contentAddressed, w, x, w' => ∃ now,
      Transaction env (·.registerValidPath config.toStoreDirConfig now info contentAddressed) w x w'
  | .invalidatePathChecked path, w, x, w' =>
      Transaction env (·.invalidatePathChecked config.toStoreDirConfig path) w x w'
  | .dumpPath p, w, x, w' => Dump env w.fs p x ∧ w' = w

/-- Every operation has an outcome. -/
theorem exec_total (o : Op) (w : World) : ∃ x w', exec env config o w x w' := by
  cases o with
  | sys c => exact ⟨_, _, _, Outcome.run 0 c, rfl⟩
  | checkInterrupt => exact ⟨false, w, by simp [exec]⟩
  | flock p wait => exact ⟨.ok true, w, by simp [exec]⟩
  | flockShared p wait => exact ⟨.ok true, w, by simp [exec]⟩
  | closeLock fd => exact ⟨(), w, rfl⟩
  | umask => exact ⟨_, w, rfl, rfl⟩
  | uniqueSuffix => exact ⟨str "0", w, by decide, by decide, rfl⟩
  | dirGrantsDefaultAcl p => exact ⟨false, w, rfl⟩
  | isValidPath path => exact ⟨_, w, Or.inl rfl, rfl⟩
  | queryAllValidPaths => exact ⟨_, w, Or.inl ⟨_, rfl, List.Perm.refl _⟩, rfl⟩
  | queryReferrers path => exact ⟨_, w, Or.inl ⟨_, rfl, List.Perm.refl _⟩, rfl⟩
  | queryPathInfo path => exact ⟨_, w, Or.inl rfl, rfl⟩
  | updatePathInfo info => exact ⟨_, _, Or.inl ⟨_, rfl, rfl, rfl⟩⟩
  | registerValidPath info contentAddressed =>
      rcases hrun : w.db.registerValidPath config.toStoreDirConfig 0 info contentAddressed with e | db
      · exact ⟨.error e, w, 0, Or.inr (Or.inl ⟨e, hrun, rfl, rfl⟩)⟩
      · exact ⟨.ok (), _, 0, Or.inl ⟨db, hrun, rfl, rfl⟩⟩
  | invalidatePathChecked path =>
      rcases hrun : w.db.invalidatePathChecked config.toStoreDirConfig path with e | db
      · exact ⟨.error e, w, Or.inr (Or.inl ⟨e, hrun, rfl, rfl⟩)⟩
      · exact ⟨.ok (), _, Or.inl ⟨db, hrun, rfl, rfl⟩⟩
  | dumpPath p => exact ⟨_, w, Dump.run default, rfl⟩

end Exec

/-! ## Small actions -/

/-- A failed call as the exception it throws. -/
def Thrown {α ε : Type} (err : ε → Exception) : Except ε α → Except Exception α
  | .ok v => .ok v
  | .error e => .error (err e)

@[simp] theorem thrown_ok {α ε : Type} {err : ε → Exception} {v : α} :
    Thrown err (.ok v) = .ok v := rfl

@[simp] theorem thrown_error {α ε : Type} {err : ε → Exception} {e : ε} :
    (Thrown err (.error e) : Except Exception α) = .error (err e) := rfl

/-- One operation, and what becomes of its answer. -/
def ask {α : Type} (o : Op) (f : Op.Ret o → Except Exception α) : Action α :=
  .op o fun x => .done (f x)

/-- A system call that throws when it fails. -/
def sys (c : Call) (err : Errno → Exception) : Action c.Val := ask (.sys c) (Thrown err)

/-- A system call whose failure is looked at. -/
def trySys (c : Call) : Action (Except Errno c.Val) := ask (.sys c) .ok

def checkInterrupt : Action Unit :=
  ask .checkInterrupt fun pending => if pending then .error .interrupted else .ok ()

def isValidPath (path : StorePath) : Action Bool := ask (.isValidPath path) (Thrown .error)

def queryAllValidPaths : Action (List StorePath) := ask .queryAllValidPaths (Thrown .error)

def queryReferrers (path : StorePath) : Action (List StorePath) :=
  ask (.queryReferrers path) (Thrown .error)

def queryPathInfoUnchecked (path : StorePath) : Action (Option ValidPathInfo) :=
  ask (.queryPathInfo path) (Thrown .error)

def updatePathInfo (info : ValidPathInfo) : Action Unit := ask (.updatePathInfo info) (Thrown .error)

def umask : Action Mode := ask .umask .ok

def uniqueSuffix : Action Bytes := ask .uniqueSuffix .ok

def dirGrantsDefaultAcl (p : Path) : Action Bool := ask (.dirGrantsDefaultAcl p) .ok

def closeLock (fd : Nat) : Action Unit := ask (.closeLock fd) .ok

def invalidatePathChecked (path : StorePath) : Action Unit :=
  ask (.invalidatePathChecked path) (Thrown .error)

/-- `hashPath`. -/
def hashPath [Sha256] (p : Path) : Action HashResult :=
  ask (.dumpPath p) fun x => x.2.map fun _ => hashSink x.1

section Rules

variable {env : Environment} {config : LocalStoreConfig} {deep : Prop} {w : World}

@[simp] theorem wp_ask {α : Type} {o : Op} {f : Op.Ret o → Except Exception α}
    {Q : Except Exception α → World → Prop} :
    (ask o f).wp (exec env config) deep Q w ↔
      ∀ x w', exec env config o w x w' → Q (f x) w' := Iff.rfl

@[simp] theorem wp_sys {c : Call} {err : Errno → Exception}
    {Q : Except Exception c.Val → World → Prop} :
    (sys c err).wp (exec env config) deep Q w ↔
      ∀ x fs, Outcome env.faults env.umask w.fs c x fs →
        Q (Thrown err x) { w with fs := fs } :=
  ⟨fun h x fs hout => h x _ ⟨fs, hout, rfl⟩, fun h x _ ⟨fs, hout, hw⟩ => hw ▸ h x fs hout⟩

@[simp] theorem wp_trySys {c : Call} {Q : Except Exception (Except Errno c.Val) → World → Prop} :
    (trySys c).wp (exec env config) deep Q w ↔
      ∀ x fs, Outcome env.faults env.umask w.fs c x fs → Q (.ok x) { w with fs := fs } :=
  ⟨fun h x fs hout => h x _ ⟨fs, hout, rfl⟩, fun h x _ ⟨fs, hout, hw⟩ => hw ▸ h x fs hout⟩

@[simp] theorem wp_checkInterrupt {Q : Except Exception Unit → World → Prop} :
    checkInterrupt.wp (exec env config) deep Q w ↔
      Q (.ok ()) w ∧ (env.interrupts → Q (.error .interrupted) w) := by
  simp only [checkInterrupt, wp_ask, exec]
  constructor
  · intro h
    exact ⟨by simpa using h false w (by simp), fun hint => by simpa using h true w (by simp [hint])⟩
  · rintro ⟨hok, hint⟩ x _ ⟨hx, rfl⟩
    cases x with
    | false => simpa using hok
    | true => simpa using hint (hx rfl)

section Normally

variable {α β : Type} {p : Action α} {f : α → Action β} {Q Q' : α → World → Prop}
  {R : β → World → Prop}

theorem Normally.mono {r : Except Exception α} {w : World} (h : Normally env Q r w)
    (hQ : ∀ a w, Q a w → Q' a w) : Normally env Q' r w := by
  cases r with
  | ok a => exact hQ a w h
  | error e => exact h

/-- Sequencing of programs that end normally. -/
theorem wp_andThen (h : p.wp (exec env config) deep (Normally env Q) w)
    (hf : ∀ a w', Q a w' → (f a).wp (exec env config) deep (Normally env R) w') :
    (p.bind f).wp (exec env config) deep (Normally env R) w := by
  rw [Prog.wp_bind]
  refine Prog.wp_mono h fun r w' hr => ?_
  cases r with
  | ok a => exact hf a w' hr
  | error e => exact hr

/-- A call that throws when it fails. -/
theorem wp_sys_normally {c : Call} {err : Errno → Exception} {Q : c.Val → World → Prop}
    (hok : ∀ v fs, Outcome env.faults env.umask w.fs c (.ok v) fs → Q v { w with fs := fs })
    (herr : ∀ e fs, Outcome env.faults env.umask w.fs c (.error e) fs → ¬ env.Reliable) :
    (sys c err).wp (exec env config) deep (Normally env Q) w := by
  rw [wp_sys]
  intro x fs hout
  cases x with
  | ok v => exact hok v fs hout
  | error e => exact herr e fs hout

theorem wp_checkInterrupt_normally {Q : Unit → World → Prop} (h : Q () w) :
    checkInterrupt.wp (exec env config) deep (Normally env Q) w :=
  wp_checkInterrupt.mpr ⟨h, fun hint hrel => hrel.interrupts hint⟩

theorem wp_umask_normally {Q : Mode → World → Prop} (h : Q env.umask w) :
    umask.wp (exec env config) deep (Normally env Q) w := by
  rw [umask, wp_ask]
  rintro x w' ⟨rfl, rfl⟩
  exact h

end Normally

end Rules

end Store
end Archinix
