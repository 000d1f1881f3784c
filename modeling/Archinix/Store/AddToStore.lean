import Archinix.Foundation.Contract
import Archinix.Foundation.Sequential
import Archinix.Store.AsyncHashSinkRuns
import Archinix.Store.ContentAddress
import Archinix.Store.Operations
import Archinix.Util.MemorySource

/-!
# Adding paths to a store

`addToStoreFromDump` and `addToStore` of `local-store.cc` down to the functions they call,
which are the steps that processes on one store interleave.  A `World` has what these
functions share: the database, what lies at the real path of each store path, and who
holds which lock.  Modes, times and link counts are left out; `Contents` is what an
archive of the path would say.

Every function may throw, and a process may die at any point.
-/

namespace Archinix
namespace Store
namespace Adding

open Foundation Util

/-- What lies somewhere in the store: a tree, or what is not one, or not yet. -/
inductive Contents where
  | nothing
  | tree (t : Tree)
  | other

/-- Where an archive is restored. -/
inductive Place where
  /-- `x` in the temporary directory of the process. -/
  | temp
  | realPath (path : StorePath)

/-- The functions that are called. -/
inductive Request where
  | dirGrantsDefaultAcl
  | createTempDirInStore
  /-- `~AutoDelete`. -/
  | deleteTempDir
  /-- `restorePath` or `restorePathCapturingHashes` from a `TeeSource`: what this gave to its
  sink, write by write, and what is left of the source. -/
  | restorePath (place : Place) (source : Bytes)
  /-- `AsyncHashSink::finish`, after these writes. -/
  | finishHash (writes : List Bytes)
  | isValidPath (path : StorePath)
  /-- `lockPaths`, waiting. -/
  | lockPath (path : StorePath)
  /-- `~PathLocks`. -/
  | unlockPath (path : StorePath) (deletion : Bool)
  /-- One removal of `deletePath`: whether it goes on. -/
  | remove (path : StorePath)
  /-- `moveFile` from the temporary directory. -/
  | moveFile (path : StorePath)
  /-- `canonicalisePathMetaData`, or only the root if that is enough. -/
  | canonicalise (path : StorePath) (recursive : Bool)
  | optimisePath (path : StorePath)
  /-- `recursiveSync` and `syncParent`. -/
  | sync (path : StorePath)
  | registerValidPath (info : ValidPathInfo)
  /-- `openGCLock` and `FdLock`. -/
  | lockGC
  | unlockGC
  | findRoots
  | invalidatePathChecked (path : StorePath)

namespace Request

@[reducible] def Val : Request → Type
  | dirGrantsDefaultAcl => Bool
  | restorePath _ _ => List Bytes × Bytes
  | finishHash _ => HashResult
  | isValidPath _ => Bool
  | remove _ => Bool
  | findRoots => List StorePath
  | _ => Unit

end Request

@[reducible] def Requests : Interface where
  Op := Request
  Ret r := Except Exception r.Val
  Task := Empty
  Err := Exception

instance : IsEmpty Requests.Task := inferInstanceAs (IsEmpty Empty)

/-! ## The functions of the library -/

/-- A call whose exceptions are passed on. -/
def call (r : Request) : Prog Requests r.Val := .op r fun x => .done x

/-- What follows for a path that is not valid. -/
def unlessValid (path : StorePath) (body : Prog Requests Unit) : Prog Requests Unit := do
  if ← call (.isValidPath path) then pure () else body

/-- The scope of a `PathLocks` on one path; its end marks the lock file for deletion. -/
def locked (path : StorePath) (body : Prog Requests Unit) : Prog Requests Unit := do
  call (.lockPath path)
  let ended ← body.attempt
  let _ ← (call (.unlockPath path ended.isOk)).attempt
  Prog.done ended

/-- `deletePath(toRealPath(path))`, which recurses `depth` times at most. -/
def deletePath : (depth : Nat) → StorePath → Prog Requests Unit
  | 0, _ => .spin
  | depth + 1, path => do
      if ← call (.remove path) then deletePath depth path else pure ()

/-- The settings of a store that the functions read. -/
structure Settings extends StoreDirConfig where
  fsyncStorePaths : Bool

/-- A computation without calls. -/
def compute {α : Type} (r : Except Error α) : Prog Requests α := .done (r.mapError .error)

section Functions

variable [Sha256] (settings : Settings) (depth : Nat)

/-- `ValidPathInfo::makeFromCA`. -/
def makeFromCA (name : Bytes) (narHash : Hash) : Except Error ValidPathInfo :=
  (settings.makeContentAddressedPath name narHash).map fun path =>
    { path, narHash, references := [], registrationTime := 0, narSize := 0, ca := some narHash }

/-- What makes a restored path canonical, shared with others and safe on the disk. -/
def finishPath (path : StorePath) (canonicalRestore : Bool) : Prog Requests Unit := do
  call (.canonicalise path !canonicalRestore)
  call (.optimisePath path)
  if settings.fsyncStorePaths then call (.sync path) else pure ()

namespace FromDump

/-- What `addToStoreFromDump` does with the lock held, for a path that is still not valid. -/
def place (name : Bytes) (canonicalRestore : Bool) (dumpHash : HashResult) (dstPath : StorePath) :
    Prog Requests Unit := do
  deletePath depth dstPath
  call (.moveFile dstPath)
  finishPath settings dstPath canonicalRestore
  let info ← compute (makeFromCA settings name dumpHash.hash)
  call (.registerValidPath { info with narSize := dumpHash.numBytesDigested })

/-- `addToStoreFromDump`, in the scope of its temporary directory. -/
def restored (source name : Bytes) (canonicalRestore : Bool) : Prog Requests StorePath := do
  let (writes, _) ← call (.restorePath .temp source)
  let dumpHash ← call (.finishHash writes)
  let dstPath ← compute (settings.makeContentAddressedPath name dumpHash.hash)
  unlessValid dstPath
    (locked dstPath
      (unlessValid dstPath (place settings depth name canonicalRestore dumpHash dstPath)))
  pure dstPath

end FromDump

def addToStoreFromDump (source name : Bytes) : Prog Requests StorePath := do
  let acl ← call .dirGrantsDefaultAcl
  call .createTempDirInStore
  Prog.finally' (FromDump.restored settings depth source name !acl) (call .deleteTempDir)

/-- What `addToStore` does with the lock held, for a path that is still not valid. -/
def placeFrom (info : ValidPathInfo) (source : Bytes) : Prog Requests Unit := do
  deletePath depth info.path
  let acl ← call .dirGrantsDefaultAcl
  let (writes, _) ← call (.restorePath (.realPath info.path) source)
  let hashResult := (writes.foldl HashSink.write HashSink.new).finish
  if hashResult.hash ≠ info.narHash then
    throw (.error ⟨.error, "hash mismatch importing path '%s';\n  specified: %s\n  got:       %s",
      [settings.printStorePath info.path, info.narHash, hashResult.hash]⟩)
  else if hashResult.numBytesDigested ≠ info.narSize then
    throw (.error ⟨.error, "size mismatch importing path '%s';\n  specified: %s\n  got:       %s",
      [settings.printStorePath info.path, natStr info.narSize, natStr hashResult.numBytesDigested]⟩)
  else do
    finishPath settings info.path !acl
    call (.registerValidPath info)

def addToStore (info : ValidPathInfo) (source : Bytes) : Prog Requests Unit :=
  unlessValid info.path
    (locked info.path (unlessValid info.path (placeFrom settings depth info source)))

end Functions

/-! ### Contracts of what is put together -/

section Rules

variable {ρ : Type} {C : Contract Requests ρ} {deep : Prop} {α β : Type}
  {Q : Except Exception β → ρ → Prop} {held : ρ}

theorem meets_call {r : Request} {f : r.Val → Prog Requests β} (hpre : C.pre r held)
    (hok : ∀ v held', C.post r held (.ok v) held' → (f v).Meets C deep Q held')
    (herror : ∀ e held', C.post r held (.error e) held' → Q (.error e) held') :
    (call r >>= f).Meets C deep Q held := by
  refine ⟨hpre, fun x held' hpost => ?_⟩
  cases x with
  | ok v => exact hok v held' hpost
  | error e => exact herror e held' hpost

theorem meets_compute {r : Except Error α} {f : α → Prog Requests β}
    (hok : ∀ a, r = .ok a → (f a).Meets C deep Q held) (herror : ∀ e, Q (.error e) held) :
    (compute r >>= f).Meets C deep Q held := by
  cases r with
  | ok a => exact hok a rfl
  | error e => exact herror _

end Rules

/-! ## What the calls do -/

/-- What the processes of `ι` act on. -/
structure World (ι : Type) where
  db : Database
  /-- What lies at the real path of each store path. -/
  contents : StorePath → Contents
  /-- What lies in the temporary directory of each process. -/
  temp : ι → Contents
  /-- Who has locked the path. -/
  holder : StorePath → Option ι
  /-- Who has begun to put something at the real path, and still has the lock. -/
  placing : StorePath → Option ι
  /-- Who has locked `gc.lock`. -/
  gcHolder : Option ι
  roots : List StorePath
  /-- How often each path has been inserted into `ValidPaths`. -/
  inserted : StorePath → Nat
  /-- The processes that have died. -/
  dead : Set ι

/-- The call throws. -/
def Throws {α : Type} (x : Except Exception α) : Prop := ∃ e, x = .error e

section Exec

variable [Sha256] (settings : Settings) {ι : Type} [DecidableEq ι]

namespace World

variable (w : World ι)

def put (i : ι) (place : Place) (c : Contents) : World ι :=
  match place with
  | .temp => { w with temp := Function.update w.temp i c }
  | .realPath path => { w with contents := Function.update w.contents path c }

/-- Process `i` puts something in its place; only it knows what becomes of it. -/
def place (i : ι) (path : StorePath) (c : Contents) : World ι :=
  { w.put i (.realPath path) c with placing := Function.update w.placing path (some i) }

/-- An archive is restored, or what there is of it. -/
def restore (i : ι) (p : Place) (c : Contents) : World ι :=
  match p with
  | .temp => w.put i .temp c
  | .realPath path => w.place i path c

/-- The lock of the path ends, if `i` has it. -/
def release (i : ι) (path : StorePath) : World ι :=
  { w with
    holder := Function.update w.holder path (if w.holder path = some i then none else w.holder path)
    placing := Function.update w.placing path
      (if w.placing path = some i then none else w.placing path) }

/-- A registration, and whether the path is new. -/
def registered (db : Database) (path : StorePath) : World ι :=
  { w with
    db := db
    inserted := Function.update w.inserted path
      (if w.db.isValidPath_ path then w.inserted path else w.inserted path + 1) }

/-- The process dies: the kernel closes its descriptors. -/
def died (i : ι) : World ι :=
  { w with
    dead := insert i w.dead
    holder := fun path => if w.holder path = some i then none else w.holder path
    placing := fun path => if w.placing path = some i then none else w.placing path
    gcHolder := if w.gcHolder = some i then none else w.gcHolder }

end World

/-- What a call of process `i` may do, if it is alive. -/
def Does (i : ι) : Exec Requests (World ι)
  | .dirGrantsDefaultAcl, w, _, w' => w' = w
  | .createTempDirInStore, w, x, w' => (x = .ok () ∧ w' = w.put i .temp .nothing) ∨ Throws x ∧ w' = w
  | .deleteTempDir, w, x, w' =>
      (x = .ok () ∧ w' = w.put i .temp .nothing) ∨ Throws x ∧ ∃ c, w' = w.put i .temp c
  | .restorePath place source, w, x, w' =>
      (∃ reads t rest writes, parseIntoMemory [] reads source = .ok (some t, rest) ∧
        source = writes.flatten ++ rest ∧ x = .ok (writes, rest) ∧ w' = w.restore i place (.tree t)) ∨
      Throws x ∧ ∃ c, w' = w.restore i place c
  | .finishHash writes, w, x, w' =>
      ((∃ result, AsyncHashSink.MayReturn writes.flatten result ∧ x = .ok result) ∨ Throws x) ∧ w' = w
  | .isValidPath path, w, x, w' => (x = .ok (w.db.isValidPath_ path) ∨ Throws x) ∧ w' = w
  | .lockPath path, w, x, w' =>
      (x = .ok () ∧ w.holder path = none ∧
        w' = { w with holder := Function.update w.holder path (some i) }) ∨
      Throws x ∧ w' = w
  -- the descriptor stays open if the lock file cannot be written to
  | .unlockPath path _, w, x, w' =>
      (x = .ok () ∧ w' = w.release i path) ∨ Throws x ∧ (w' = w ∨ w' = w.release i path)
  | .remove path, w, x, w' =>
      (x = .ok false ∧ w' = w.put i (.realPath path) .nothing) ∨
      ((x = .ok true ∨ Throws x) ∧ ∃ c, (w.contents path = .nothing → c = .nothing) ∧
        w' = w.put i (.realPath path) c)
  -- errors of `rename` other than `EXDEV` are not passed on
  | .moveFile path, w, x, w' =>
      (x = .ok () ∧ (w' = w.place i path (w.contents path) ∨
        w' = (w.place i path (w.temp i)).put i .temp .nothing)) ∨
      Throws x ∧ ∃ c c', w' = (w.place i path c).put i .temp c'
  | .canonicalise path _, w, x, w' => (x = .ok () → w.contents path ≠ .nothing) ∧ w' = w
  | .optimisePath _, w, _, w' => w' = w
  | .sync _, w, _, w' => w' = w
  | .registerValidPath info, w, x, w' =>
      (∃ contentAddressed now db, info.isContentAddressed settings.toStoreDirConfig = .ok contentAddressed ∧
        w.db.registerValidPath settings.toStoreDirConfig now info contentAddressed = .ok db ∧
        x = .ok () ∧ w' = w.registered db info.path) ∨
      Throws x ∧ w' = w
  | .lockGC, w, x, w' =>
      (x = .ok () ∧ w.gcHolder = none ∧ w' = { w with gcHolder := some i }) ∨ Throws x ∧ w' = w
  | .unlockGC, w, x, w' =>
      (x = .ok () ∧ w' = { w with gcHolder := if w.gcHolder = some i then none else w.gcHolder }) ∨
      Throws x ∧ w' = w
  | .findRoots, w, x, w' => (x = .ok w.roots ∨ Throws x) ∧ w' = w
  | .invalidatePathChecked path, w, x, w' =>
      (∃ db, w.db.invalidatePathChecked settings.toStoreDirConfig path = .ok db ∧ x = .ok () ∧
        w' = { w with db := db }) ∨
      Throws x ∧ w' = w

/-- The steps of process `i`. -/
def exec (i : ι) : Exec Requests (World ι) := fun r w x w' => i ∉ w.dead ∧ Does settings i r w x w'

end Exec

end Adding
end Store
end Archinix
