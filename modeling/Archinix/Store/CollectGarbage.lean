import Archinix.Store.FindRoots

/-!
# The collector

`collectGarbage` of `gc.cc`.  Named paths are unregistered and deleted one by
one in the order of their names, unless a root or another valid path keeps them;
then the entries of `.links` that are their inode's only link go.

`CollectorKeeps` says what the collector leaves alone whatever happens to it on
the way.
-/

namespace Archinix
namespace Store

open Foundation Util Host

/-- `GCOptions`: a `StorePathSet` is kept in ascending order. -/
structure GCOptions where
  paths : List StorePath
  sorted : paths.Pairwise (· < ·)

section CollectGarbage

variable (config : LocalStoreConfig)

def openGCLock : Action Nat :=
  sys (.openLock config.gcLockPath 0o600)
    (sysError "opening lock file %1%" [CanonPath.abs config.gcLockPath])

def lockFile (p : Path) (wait : Bool) : Action Bool :=
  ask (.flock p wait) (Thrown (sysError "acquiring/releasing lock" []))

/-- `FdLock(fd, ltWrite, true)`. -/
def fdLock (p : Path) : Action Bool := do
  if ← lockFile p false then pure true else lockFile p true

def deleteStorePath (depth : Nat) (path : Path) : Action Unit := do
  match ← (deletePath depth path).attempt with
  | .ok () => pure ()
  | .error (.systemError e err) =>
      if config.ignoreGcDeleteFailure then pure () else throw (.systemError e err)
  | .error e => throw e

/-- The lambda `deleteFromStore`; `results` is `GCResults::paths`. -/
def deleteFromStore (depth : Nat) (path : StorePath) (results : List Bytes) :
    Action (List Bytes) := do
  let realPath := config.toRealPath path
  if path.baseName.take 4 = str "tmp-" then
    match ← trySys (.openDirectory realPath) with
    | .error _ => return results
    | .ok () =>
        if !(← lockFile realPath false) then
          return results
  deleteStorePath config depth realPath
  return results.insert (config.printStorePath path)

/-- One round of the loop over the named paths. -/
def collectPath (depth : Nat) (roots : Roots) (results : List Bytes) (path : StorePath) :
    Action (List Bytes) := do
  checkInterrupt
  if path ∈ roots then
    throw (.error ⟨.error,
      "cannot delete path '%1%' since it is still a garbage collector root",
      [config.printStorePath path]⟩)
  else
    let body : Action (List Bytes) := do
      invalidatePathChecked path
      deleteFromStore config depth path results
    match ← body.attempt with
    | .ok results => pure results
    | .error (.error e) => if e.cls = .pathInUse then pure results else throw (.error e)
    | .error e => throw e

/-- One round of the loop over `.links`. -/
def removeUnusedLink (name : Name) : Action Unit := do
  checkInterrupt
  let path := config.linksDir ++ [name]
  let st ← sys (.lstat path) (sysError "getting status of %s" [CanonPath.abs path])
  if st.nlink = 1 then
    sys (.unlink path) (sysError "removing %s" [CanonPath.abs path])

/-- The loop over `.links`; an error of `readdir` ends it like the end of the
directory does. -/
def removeUnusedLinks : Action Unit := do
  let listing ← sys (.readdir config.linksDir)
    (sysError "opening directory %1%" [CanonPath.abs config.linksDir])
  (listing.entries.map (·.name)).forM (removeUnusedLink config)

def collectGarbage (depth : Nat) (options : GCOptions) : Action (List Bytes) :=
  if options.paths = [] then pure []
  else do
    deletePath depth config.reservedPath
    let _ ← openGCLock config
    let _ ← fdLock config.gcLockPath
    let roots ← findRoots config depth config.gcRootsDir none []
    let results ← options.paths.foldlM (collectPath config depth roots) []
    removeUnusedLinks config
    pure results

end CollectGarbage

/-! ## Where things are -/

namespace LocalStoreConfig

variable (config : LocalStoreConfig)

theorem toRealPath_eq (p : StorePath) :
    config.toRealPath p = config.rootDir ++ [str "nix", str "store", p.baseName] := by
  simp [toRealPath, realStoreDir]

theorem reservedPath_eq : config.reservedPath =
    config.rootDir ++ [str "nix", str "var", str "nix", str "db", str "reserved"] := by
  simp [reservedPath, dbDir, stateDir]

theorem gcLockPath_eq : config.gcLockPath =
    config.rootDir ++ [str "nix", str "var", str "nix", str "gc.lock"] := by
  simp [gcLockPath, stateDir]

theorem gcRootsDir_eq : config.gcRootsDir =
    config.rootDir ++ [str "nix", str "var", str "nix", str "gcroots"] := by
  simp [gcRootsDir, stateDir]

theorem linksDir_eq : config.linksDir =
    config.rootDir ++ [str "nix", str "store", str ".links"] := by
  simp [linksDir, realStoreDir]

theorem parentDir_toRealPath (p : StorePath) :
    parentDir (config.toRealPath p) = config.realStoreDir := parentDir_append _ _

theorem toRealPath_ne_nil (p : StorePath) : config.toRealPath p ≠ [] := by
  simp [toRealPath]

theorem toRealPath_ne_realStoreDir (p : StorePath) :
    ¬ config.toRealPath p <+: config.realStoreDir := by
  intro h
  have hlen := h.length_le
  simp [toRealPath] at hlen

/-- Two store paths are nowhere at or below the same path. -/
theorem toRealPath_disjoint {p q : StorePath} {path : Path} (hp : config.toRealPath p <+: path)
    (hq : config.toRealPath q <+: path) : p = q := by
  obtain ⟨r, rfl⟩ := hp
  obtain ⟨r', heq⟩ := hq
  simp only [toRealPath, List.append_assoc, List.append_cancel_left_eq, List.cons_append,
    List.nil_append, List.cons.injEq] at heq
  exact StorePath.ext heq.1.symm

theorem baseName_ne_links (p : StorePath) : p.baseName ≠ str ".links" :=
  p.ne_of_head (by decide)

theorem not_toRealPath_links (p : StorePath) (name : Name) :
    ¬ config.toRealPath p <+: config.linksDir ++ [name] := by
  rintro ⟨r, h⟩
  simp only [toRealPath, linksDir, List.append_assoc, List.append_cancel_left_eq, List.cons_append,
    List.nil_append, List.cons.injEq] at h
  exact baseName_ne_links p h.1

/-- The state directory is apart from the store. -/
theorem not_toRealPath_stateDir (p : StorePath) (r : Path) :
    ¬ config.toRealPath p <+: config.stateDir ++ r := by
  rintro ⟨r', h⟩
  simp only [toRealPath_eq, stateDir, List.append_assoc, List.append_cancel_left_eq,
    List.cons_append, List.nil_append, List.cons.injEq] at h
  exact absurd h.2.1 (by decide)

end LocalStoreConfig

end Store
end Archinix
