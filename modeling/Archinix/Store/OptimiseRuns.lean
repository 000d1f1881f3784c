import Archinix.Host.Links
import Archinix.Store.OptimiseStore

/-!
# Runs of the deduplication

What the requests do, and any number of runs side by side, beside somebody who unlinks entries of
the link farm.
-/

namespace Archinix
namespace Store
namespace Optimising

open Foundation Util Host

/-- The file system, and for each run its `inodeHash`, its counters, and the state of its pool. -/
structure World (ι : Type) where
  fs : FileSystem
  inodes : ι → List Nat
  filesLinked : ι → Nat
  bytesFreed : ι → Nat
  /-- What the first task that threw has thrown. -/
  failed : ι → Option Exception
  quit : ι → Bool

section Exec

variable {ι : Type} [DecidableEq ι]

/-- The file names that `optimisePath_` makes for its temporary links. -/
def tempPrefix : Bytes := str ".tmp-link-"

/-- `throw ThreadPoolShutDown`. -/
def threadPoolShutDown : Exception :=
  .error ⟨.error, "cannot enqueue a work item while the thread pool is shutting down", []⟩

/-- The answer to a query, unless the database fails. -/
def Answers {α : Type} (env : Environment) (answer : α → Prop) (x : Except Exception α) : Prop :=
  (∃ a, x = .ok a ∧ answer a) ∨
    (env.dbFails ∧ ∃ e : Error, e.cls = .sqliteError ∧ x = .error (.error e))

variable (env : Environment) (valid : List StorePath)

/-- What the requests of the run `i` do.  Threads of a pool that quits are interrupted. -/
def exec (i : ι) : Exec Requests (World ι)
  | .sys c, w, x, w' => ∃ fs, Outcome env.faults env.umask w.fs c x fs ∧ w' = { w with fs := fs }
  | .checkInterrupt, w, x, w' => (x = true → env.interrupts ∨ w.quit i = true) ∧ w' = w
  | .dumpPath p, w, x, w' => Dump env w.fs p x ∧ w' = w
  | .contains ino, w, x, w' => x = ino.any (decide <| · ∈ w.inodes i) ∧ w' = w
  | .insert ino, w, _, w' =>
      w' = { w with inodes := Function.update w.inodes i (ino.toList ++ w.inodes i) }
  | .tempName, w, x, w' => tempPrefix <+: x ∧ (47 : UInt8) ∉ x ∧ w' = w
  | .linked size, w, _, w' =>
      w' = { w with
        filesLinked := Function.update w.filesLinked i (w.filesLinked i + 1)
        bytesFreed := Function.update w.bytesFreed i (w.bytesFreed i + size) }
  | .queryAllValidPaths, w, x, w' => Answers env (·.Perm valid) x ∧ w' = w
  | .isValidPath path, w, x, w' => Answers env (· = decide (path ∈ valid)) x ∧ w' = w
  | .enqueue _, w, x, w' =>
      x = (if w.quit i then .error threadPoolShutDown else .ok ()) ∧ w' = w
  | .dequeue, w, x, w' => x = !w.quit i ∧ w' = w
  | .fail e, w, _, w' =>
      w' = { w with
        failed := Function.update w.failed i ((w.failed i).or (some e))
        quit := Function.update w.quit i true }
  | .process, w, x, w' => x = (w.failed i).elim (.ok ()) .error ∧ w' = w
  | .shutdown, w, _, w' => w' = { w with quit := Function.update w.quit i true }

end Exec

/-- What is run. -/
inductive Job where
  | optimiseStore
  | optimisePath (files : Option (Bytes → Option Hash)) (path : StorePath)
  | autoOptimisePath (path : Path)

def Job.program [Sha256] (config : LocalStoreConfig) (depth : Nat) : Job → Action Unit
  | optimiseStore => Optimising.optimiseStore config depth
  | optimisePath files path => Optimising.optimisePath config files depth path
  | autoOptimisePath path => Optimising.autoOptimisePath config depth path

/-- Runs of the deduplication over a store. -/
structure Runs (ι : Type) where
  config : LocalStoreConfig
  env : Environment
  valid : List StorePath
  /-- The file system before the runs. -/
  fs : FileSystem
  job : ι → Job
  depth : ι → Nat

namespace Runs

variable {ι : Type} (R : Runs ι)

def farm (name : Name) : Path := R.config.linksDir ++ [name]

def IsFarm (p : Path) : Prop := ∃ name, p = R.farm name

/-- The paths that temporary links may have. -/
def IsTemp (p : Path) : Prop := ∃ name, tempPrefix <+: name ∧ p = R.config.realStoreDir ++ [name]

/-- The paths of the nodes of store paths. -/
def InStore (p : Path) : Prop :=
  ∃ base rest, ¬ str "." <+: base ∧ p = R.config.realStoreDir ++ base :: rest

/-- Nobody has begun. -/
structure Initial [Sha256] (m : Machine Requests (World ι) ι Unit) : Prop where
  fs : m.state.fs = R.fs
  inodes : m.state.inodes = fun _ => []
  filesLinked : m.state.filesLinked = fun _ => 0
  bytesFreed : m.state.bytesFreed = fun _ => 0
  failed : m.state.failed = fun _ => none
  quit : m.state.quit = fun _ => false
  process : m.process = fun i => .start ((R.job i).program R.config (R.depth i))

/-- Somebody unlinks an entry of the farm. -/
def Unlinks (w w' : World ι) : Prop :=
  ∃ name ino fs, w.fs.node (R.farm name) = some (.leaf ino) ∧ Removed w.fs fs (R.farm name) ∧
    w' = { w with fs := fs }

def system [Sha256] [DecidableEq ι] :
    TransitionSystem (Machine Requests (World ι) ι Unit) (Actor ι) :=
  machine (exec R.env R.valid) (body R.config) R.Unlinks R.Initial

variable {R} {p : Path} {name : Name}

theorem InStore.append (h : R.InStore p) (more : Path) : R.InStore (p ++ more) := by
  obtain ⟨base, rest, hbase, rfl⟩ := h
  exact ⟨base, rest ++ more, hbase, by simp⟩

theorem farm_eq : R.farm name = R.config.realStoreDir ++ str ".links" :: [name] := by
  simp [farm, LocalStoreConfig.linksDir]

theorem farm_injective {other : Name} (h : R.farm name = R.farm other) : name = other := by
  simpa [farm] using h

theorem farm_ne_nil : R.farm name ≠ [] := by simp [farm]

theorem InStore.ne_farm (h : R.InStore p) : p ≠ R.farm name := by
  obtain ⟨base, rest, hbase, rfl⟩ := h
  rw [farm_eq]
  intro heq
  obtain ⟨rfl, -⟩ := List.cons.inj (List.append_cancel_left heq)
  exact hbase (by decide)

theorem InStore.not_isFarm (h : R.InStore p) : ¬ R.IsFarm p := fun ⟨_, hfarm⟩ => h.ne_farm hfarm

theorem InStore.not_isTemp (h : R.InStore p) : ¬ R.IsTemp p := by
  obtain ⟨base, rest, hbase, rfl⟩ := h
  rintro ⟨temp, htemp, heq⟩
  obtain ⟨rfl, -⟩ := List.cons.inj (List.append_cancel_left heq)
  exact hbase (List.IsPrefix.trans (by decide) htemp)

theorem IsTemp.ne_farm (h : R.IsTemp p) : p ≠ R.farm name := by
  obtain ⟨temp, -, rfl⟩ := h
  rw [farm_eq]
  intro heq
  simpa using congrArg List.length (List.append_cancel_left heq)

theorem IsTemp.ne_nil (h : R.IsTemp p) : p ≠ [] := by
  obtain ⟨temp, -, rfl⟩ := h
  simp

theorem InStore.ne_nil (h : R.InStore p) : p ≠ [] := by
  obtain ⟨base, rest, -, rfl⟩ := h
  simp

theorem InStore.ne_realStoreDir (h : R.InStore p) : p ≠ R.config.realStoreDir := by
  obtain ⟨base, rest, -, rfl⟩ := h
  simp

theorem InStore.ne_linksDir (h : R.InStore p) : p ≠ R.config.linksDir := by
  obtain ⟨base, rest, hbase, rfl⟩ := h
  intro heq
  obtain ⟨rfl, -⟩ := List.cons.inj (List.append_cancel_left heq)
  exact hbase (by decide)

theorem InStore.parentDir (h : R.InStore p) (hne : parentDir p ≠ R.config.realStoreDir) :
    R.InStore (Host.parentDir p) := by
  obtain ⟨base, rest, hbase, rfl⟩ := h
  rcases List.eq_nil_or_concat rest with rfl | ⟨rest, last, rfl⟩
  · exact absurd (parentDir_append _ _) hne
  · refine ⟨base, rest, hbase, ?_⟩
    rw [List.concat_eq_append, ← List.cons_append, ← List.append_assoc, parentDir_append]

@[simp] theorem parentDir_farm : parentDir (R.farm name) = R.config.linksDir := parentDir_append _ _

theorem IsTemp.parentDir (h : R.IsTemp p) : Host.parentDir p = R.config.realStoreDir := by
  obtain ⟨temp, -, rfl⟩ := h
  exact parentDir_append _ _

/-- Names of store paths do not begin with a dot. -/
theorem inStore_toRealPath (path : StorePath) : R.InStore (R.config.toRealPath path) := by
  refine ⟨path.baseName, [], ?_, rfl⟩
  rintro ⟨rest, hrest⟩
  exact path.ne_of_head (by decide) hrest.symm

end Runs

end Optimising
end Store
end Archinix
