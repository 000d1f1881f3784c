import Archinix.Store.Operations

/-!
# Deduplicating the store

`optimisePath_` of `optimise-store.cc` and the functions that run it.  A recursion over a directory
tree is unrolled to a `depth` here, and a task of the pool is a background task.  Messages and the
progress that is only reported are left out.
-/

namespace Archinix
namespace Store
namespace Optimising

open Foundation Util Host

/-- What a run asks of its surroundings. -/
inductive Request where
  | sys (c : Call)
  /-- Whether an interrupt is pending. -/
  | checkInterrupt
  /-- `dumpPath(p, sink)`: what the sink is given, and how it ends. -/
  | dumpPath (p : Path)
  /-- `inodeHash.contains`; directories have numbers that are in no farm. -/
  | contains (ino : Option Nat)
  /-- `inodeHash.insert`. -/
  | insert (ino : Option Nat)
  /-- `.tmp-link-`, the process and the next number of its counter. -/
  | tempName
  /-- One more of `filesLinked`, and `bytesFreed`. -/
  | linked (bytesFreed : Nat)
  | queryAllValidPaths
  | isValidPath (path : StorePath)
  /-- `pool.enqueue`, which throws once the pool shuts down. -/
  | enqueue (path : Path)
  /-- Whether a worker still takes the task. -/
  | dequeue
  /-- A task has thrown. -/
  | fail (e : Exception)
  /-- The end of `pool.process()`, which throws what a task has thrown. -/
  | process
  /-- `~ThreadPool`. -/
  | shutdown

@[reducible] def Request.Ret : Request → Type
  | sys c => Except Errno c.Val
  | checkInterrupt => Bool
  | dumpPath _ => Bytes × Except Exception Unit
  | contains _ => Bool
  | insert _ => Unit
  | tempName => Name
  | linked _ => Unit
  | queryAllValidPaths => Except Exception (List StorePath)
  | isValidPath _ => Except Exception Bool
  | enqueue _ => Except Exception Unit
  | dequeue => Bool
  | fail _ => Unit
  | process => Except Exception Unit
  | shutdown => Unit

/-- `ImportFileHashes::files`, and the length of the path that its keys leave out. -/
structure FileHashes where
  files : Bytes → Option Hash
  base : Nat

/-- A subtree that is walked by a task: whether it forks tasks of its own, and how deep it goes. -/
structure Task where
  fileHashes : Option FileHashes
  pool : Bool
  depth : Nat
  path : Path

@[reducible] def Requests : Interface where
  Op := Request
  Ret := Request.Ret
  Task := Task
  Err := Exception

abbrev Action := Prog Requests

/-- One request, and what becomes of its answer. -/
def ask {α : Type} (r : Request) (f : r.Ret → Except Exception α) : Action α :=
  .op r fun x => .done (f x)

def sys (c : Call) (err : Errno → Exception) : Action c.Val := ask (.sys c) (Thrown err)

def trySys (c : Call) : Action (Except Errno c.Val) := ask (.sys c) .ok

def checkInterrupt : Action Unit :=
  ask .checkInterrupt fun pending => if pending then .error .interrupted else .ok ()

def contains (ino : Option Nat) : Action Bool := ask (.contains ino) .ok

def insert (ino : Option Nat) : Action Unit := ask (.insert ino) .ok

/-! ## Modes and times -/

/-- `S_IWUSR`. -/
def ownerWrite : Mode := 0o200

def mtimeStore : Time := 1

def lstat (path : Path) : Action FileStat :=
  sys (.lstat path) (sysError "getting status of %s" [CanonPath.abs path])

def maybeLstat (path : Path) : Action (Option FileStat) :=
  ask (.sys (.lstat path)) fun
    | .ok st => .ok (some st)
    | .error e =>
        if e = .enoent ∨ e = .enotdir then .ok none
        else .error (sysError "getting status of %s" [CanonPath.abs path] e)

def chmod (path : Path) (mode : Mode) : Action Unit :=
  sys (.chmod path mode) (sysError "setting permissions on %s" [CanonPath.abs path])

def setWriteTime (path : Path) (mtime : Time) : Action Unit :=
  sys (.utimens path mtime)
    (sysError "changing modification time of %s (using `utimensat`)" [CanonPath.abs path])

def unlinkIfExists (path : Path) : Action Unit :=
  ask (.sys (.unlink path)) fun
    | .ok () => .ok ()
    | .error e =>
        if e = .enoent then .ok () else .error (sysError "removing %s" [CanonPath.abs path] e)

def makeWritable (path : Path) : Action Unit := do
  let st ← lstat path
  if st.mode &&& ownerWrite = 0 then chmod path (st.mode ||| ownerWrite)

/-- The mode of a node in the store. -/
def canonicalMode (st : FileStat) : Mode :=
  if st.type = .tDirectory then 0o755 else if st.mode.isExecutable then 0o555 else 0o444

def canonicaliseTimestampAndPermissions (path : Path) : Action Unit := do
  let st ← lstat path
  if st.type ≠ .tSymlink ∧ st.mode ≠ canonicalMode st then chmod path (canonicalMode st)
  if st.mtime ≠ mtimeStore then setWriteTime path mtimeStore

section Run

variable (config : LocalStoreConfig)

/-! ## The inodes of the farm -/

/-- The loop of `loadInodeHash`. -/
def insertInodes : List DirEntry → Action Unit
  | [] => pure ()
  | e :: entries => do
      checkInterrupt
      insert e.ino
      insertInodes entries

def loadInodeHash : Action Unit := do
  let listing ← sys (.readdir config.linksDir)
    (sysError "opening directory %1%" [CanonPath.abs config.linksDir])
  insertInodes listing.entries
  match listing.error with
  | some e => throw (sysError "reading directory %1%" [CanonPath.abs config.linksDir] e)
  | none => pure ()

structure OptimiseEnt where
  name : Name
  isDir : Bool

/-- The loop of `readDirectoryIgnoringInodes`. -/
def ignoreInodes : List DirEntry → Action (List OptimiseEnt)
  | [] => pure []
  | e :: entries => do
      checkInterrupt
      if ← contains e.ino then
        ignoreInodes entries
      else
        let names ← ignoreInodes entries
        pure (⟨e.name, e.type = .tDirectory⟩ :: names)

def readDirectoryIgnoringInodes (path : Path) : Action (List OptimiseEnt) := do
  let listing ← sys (.readdir path) (sysError "opening directory %s" [CanonPath.abs path])
  let names ← ignoreInodes listing.entries
  match listing.error with
  | some e => throw (sysError "reading directory %s" [CanonPath.abs path] e)
  | none => pure names

/-! ## One file -/

/-- The hash that was captured when the node was restored, while it looks as it did then. -/
def FileHashes.captured (hashes : FileHashes) (path : Path) (st : FileStat) : Option Hash :=
  if st.mtime = mtimeStore then
    let rel := (CanonPath.abs path).drop hashes.base
    hashes.files (if rel = [] then str "/" else rel)
  else
    none

variable [Sha256]

def hashFile (fileHashes : Option FileHashes) (path : Path) (st : FileStat) : Action Hash :=
  match fileHashes.bind fun hashes => hashes.captured path st with
  | some hash => pure hash
  | none => ask (.dumpPath path) fun x => x.2.map fun _ => (hashSink x.1).hash

/-- The entry of the farm, which goes if it has been corrupted. -/
def uncorruptedEntry (linkPath : Path) (st : FileStat) : Action (Option FileStat) := do
  match ← maybeLstat linkPath with
  | some entry =>
      if st.size ≠ entry.size then do
        unlinkIfExists linkPath
        pure none
      else
        pure (some entry)
  | none => pure none

/-- Make the file the entry of the farm; the entry that somebody has made before. -/
def createEntry (path linkPath : Path) (st : FileStat) : Action (Option FileStat) := do
  match ← trySys (.link path linkPath) with
  | .ok () => do
      insert st.ino
      pure none
  | .error e =>
      if e = .eexist then maybeLstat linkPath
      else if e = .enospc then pure none
      else throw (sysError "creating hard link from %1% to %2%"
        [CanonPath.abs linkPath, CanonPath.abs path] e)

/-- The entry of the farm to replace the file with, if there is one. -/
def farmEntry (path linkPath : Path) (st : FileStat) : Action (Option FileStat) := do
  match ← uncorruptedEntry linkPath st with
  | some entry => pure (some entry)
  | none => createEntry path linkPath st

/-- Hash the file and look for an entry of the farm that is another inode. -/
def otherEntry (fileHashes : Option FileHashes) (path : Path) (st : FileStat) :
    Action (Option Path) := do
  let hash ← hashFile fileHashes path st
  let linkPath := config.linksDir ++ [hash.nix32]
  match ← farmEntry path linkPath st with
  | none => pure none
  | some entry => if st.ino = entry.ino then pure none else pure (some linkPath)

/-- `optimisePath_` on a node that is no directory, up to where the file is replaced: the entry of
the farm to replace it with. -/
def findLink (fileHashes : Option FileHashes) (path : Path) (st : FileStat) :
    Action (Option Path) :=
  if st.type ≠ .tRegular ∧ st.type ≠ .tSymlink then
    pure none
  else if st.type = .tRegular ∧ st.mode &&& ownerWrite ≠ 0 then
    pure none
  else if st.type = .tRegular ∧ st.size = 0 then
    pure none
  else do
    let known ← if st.nlink > 1 then contains st.ino else pure false
    if known then pure none else otherEntry config fileHashes path st

/-- Replace the file by a hard link to an entry of the farm. -/
def replaceFile (path linkPath : Path) (st : FileStat) : Action Unit := do
  let name ← ask .tempName .ok
  let tempLink := config.realStoreDir ++ [name]
  match ← trySys (.link linkPath tempLink) with
  | .error e =>
      if e = .emlink ∨ e = .enoent then pure ()
      else throw (sysError "creating hard link from %1% to %2%"
        [CanonPath.abs linkPath, CanonPath.abs tempLink] e)
  | .ok () =>
      match ← trySys (.rename tempLink path) with
      | .error e => do
          let _ ← trySys (.unlink tempLink)
          if e = .emlink then pure ()
          else throw (sysError "renaming %1% to %2%" [CanonPath.abs tempLink, CanonPath.abs path] e)
      | .ok () => ask (.linked (if st.type = .tRegular then st.size else 0)) .ok

/-- How a walk ended, and `*parentToggled` after it. -/
abbrev Ending := Except Exception Unit × Bool

/-- `optimisePath_` on a node that is no directory.  `parentToggled` is what the pointer leads to. -/
def optimiseFile (fileHashes : Option FileHashes) (path : Path) (st : FileStat)
    (parentToggled : Option Bool) : Action Ending := do
  match ← (findLink config fileHashes path st).attempt with
  | .error e => pure (.error e, parentToggled.getD false)
  | .ok none => pure (.ok (), parentToggled.getD false)
  | .ok (some linkPath) =>
      match parentToggled with
      | some true => do
          let ended ← (replaceFile config path linkPath st).attempt
          pure (ended, true)
      | some false => do
          match ← (makeWritable (parentDir path)).attempt with
          | .error e => pure (.error e, false)
          | .ok () => do
              let ended ← (replaceFile config path linkPath st).attempt
              pure (ended, true)
      | none =>
          if parentDir path ≠ config.realStoreDir then do
            match ← (makeWritable (parentDir path)).attempt with
            | .error e => pure (.error e, false)
            | .ok () => do
                let ended ← (replaceFile config path linkPath st).attempt
                -- `~MakeReadOnly`
                let _ ← (canonicaliseTimestampAndPermissions (parentDir path)).attempt
                pure (ended, false)
          else do
            let ended ← (replaceFile config path linkPath st).attempt
            pure (ended, false)

/-! ## The walk -/

/-- The loop of `optimisePath_` over the entries of a directory: how it ended, and `toggled`. -/
def optimiseEntries (walk : OptimiseEnt → Bool → Action Ending) :
    List OptimiseEnt → (toggled : Bool) → Action Ending
  | [], toggled => pure (.ok (), toggled)
  | ent :: entries, toggled => do
      match ← walk ent toggled with
      | (.error e, toggled) => pure (.error e, toggled)
      | (.ok (), toggled) => optimiseEntries walk entries toggled

def optimiseDirectory (walk : OptimiseEnt → Bool → Action Ending) (path : Path) :
    Action (Except Exception Unit) := do
  match ← (readDirectoryIgnoringInodes path).attempt with
  | .error e => pure (.error e)
  | .ok names => do
      let (ended, toggled) ← optimiseEntries walk names false
      if toggled then
        let _ ← (canonicaliseTimestampAndPermissions path).attempt
        pure ended
      else
        pure ended

/-- `pool->enqueue` of the walk of a subtree. -/
def enqueue (task : Task) : Action (Except Exception Unit) := do
  match ← (ask (.enqueue task.path) id).attempt with
  | .error e => pure (.error e)
  | .ok () => .fork task (pure (.ok ()))

def optimisePath_ (fileHashes : Option FileHashes) (pool : Bool) :
    (depth : Nat) → (path : Path) → (parentToggled : Option Bool) → Action Ending
  | 0, _, _ => .spin
  | depth + 1, path, parentToggled => do
      match ← (do checkInterrupt; lstat path : Action FileStat).attempt with
      | .error e => pure (.error e, parentToggled.getD false)
      | .ok st =>
          if st.type = .tDirectory then do
            let walk := fun (ent : OptimiseEnt) toggled =>
              if pool ∧ ent.isDir then do
                let ended ← enqueue ⟨fileHashes, pool, depth, path ++ [ent.name]⟩
                pure (ended, toggled)
              else
                optimisePath_ fileHashes pool depth (path ++ [ent.name]) (some toggled)
            let ended ← optimiseDirectory walk path
            pure (ended, parentToggled.getD false)
          else
            optimiseFile config fileHashes path st parentToggled

/-- What a worker of the pool does with a task. -/
def body (task : Task) : Action Unit := do
  if ← ask .dequeue .ok then
    let (ended, _) ← optimisePath_ config task.fileHashes task.pool task.depth task.path none
    match ended with
    | .error e => ask (.fail e) .ok
    | .ok () => pure ()
  else
    pure ()

/-! ## Runs -/

/-- The scope of a `ThreadPool`: its end waits for the workers. -/
def withPool (run : Action Unit) : Action Unit :=
  run.finally' do
    ask .shutdown .ok
    Prog.join (pure ())

/-- `pool.process()`. -/
def process : Action Unit := do
  Prog.join (pure ())
  ask .process id

/-- The loop of `optimiseStore` over the valid paths. -/
def enqueuePaths (depth : Nat) : List StorePath → Action Unit
  | [] => pure ()
  | path :: paths => do
      if ← ask (.isValidPath path) id then
        match ← enqueue ⟨none, false, depth, config.toRealPath path⟩ with
        | .error e => throw e
        | .ok () => enqueuePaths depth paths
      else
        enqueuePaths depth paths

def optimiseStore (depth : Nat) : Action Unit := do
  let paths ← ask .queryAllValidPaths id
  loadInodeHash config
  withPool do
    enqueuePaths config depth paths
    process

/-- `optimisePath` of an imported path. -/
def optimisePath (fileHashes : Option (Bytes → Option Hash)) (depth : Nat) (path : StorePath) :
    Action Unit := do
  if ← ask (.isValidPath path) id then
    loadInodeHash config
    let realPath := config.toRealPath path
    let hashes := fileHashes.map fun files => ⟨files, (CanonPath.abs realPath).length⟩
    withPool do
      let (ended, _) ← optimisePath_ config hashes true depth realPath none
      match ended with
      | .error e => throw e
      | .ok () => process
  else
    pure ()

/-- `optimisePath` of a path in the store, as far as `autoOptimiseStore` is set. -/
def autoOptimisePath (depth : Nat) (path : Path) : Action Unit := do
  let (ended, _) ← optimisePath_ config none false depth path none
  .done ended

end Run

end Optimising
end Store
end Archinix
