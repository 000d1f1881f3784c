import Archinix.Foundation.History
import Archinix.Store.DeletePath
import Mathlib.Data.BitVec

/-!
# Deleting a path, with the account of it

`_deletePath` and `deletePath` once more, now for any absolute path, with the
bytes freed and with `fchmodatTryNoFollow` in full.  The directory the path lies
in is opened as the path names it, symlinks and all, and everything below is
done relative to descriptors, so a call knows two paths: where its node is, and
how messages name it.

The calls a run makes are kept as its history.  What has gone, what is left and
why, how many bytes were freed and what is thrown are read off that history.
-/

namespace Archinix
namespace Store
namespace DeletePath

open Foundation Util Host

/-! ## The program -/

/-- `replaceStrings(s, "\0", "␀")`. -/
def showNullBytes (s : Bytes) : Bytes :=
  s.flatMap fun b => if b = 0 then [0xe2, 0x90, 0x80] else [b]

/-- `CanonPath::fromFilename`. -/
def fromFilename (segment : Name) : Except Exception Name :=
  if (0 : UInt8) ∈ segment then
    .error (.error ⟨.badCanonPath, "path segment '%s' must not contain null (\\0) bytes",
      [showNullBytes segment]⟩)
  else if segment = [] ∨ segment = str "." ∨ segment = str ".." ∨ (47 : UInt8) ∈ segment then
    .error (.error ⟨.badCanonPath, "invalid filename '%s'", [segment]⟩)
  else .ok segment

/-- `path.filename()`; it is empty after a trailing slash. -/
def filename (path : Path) : Name := path.getLast?.getD []

/-- `fchmodatTryNoFollow`.  A flag that says that `fchmodat2` is not supported, or
that there is no `/proc`, stands for the answer of the call that is not made. -/
def fchmodatTryNoFollow (path : Path) (mode : Mode) : Action Unit := do
  match ← trySys (.chmod path mode) with
  | .ok () => pure ()
  | .error e =>
      if e ≠ .enosys then
        throw (sysError "fchmodat2 %s" [CanonPath.abs path] e)
      sys (.openPath path)
        (sysError "opening %s to get an O_PATH file descriptor (fchmodat2 is unsupported)"
          [CanonPath.abs path])
      let st ← sys (.lstat path) (sysError "getting status of %s" [CanonPath.abs path])
      if st.type = .tSymlink then
        throw (sysError "can't change mode of symlink %s" [CanonPath.abs path] .eopnotsupp)
      match ← trySys (.chmodProc path mode) with
      | .ok () => pure ()
      | .error e =>
          if e ≠ .enoent then
            throw (sysError "chmod %s (%s)" [str "/proc/self/fd", CanonPath.abs path] e)
          sys (.fchmodat path mode) (sysError "fchmodat %s" [CanonPath.abs path])

/-- What `_deletePath` passes on by reference: `uint64_t & bytesFreed` and
`std::exception_ptr & ex`. -/
structure Deletion where
  bytesFreed : BitVec 64
  ex : Option Exception

/-- The size of what is about to be deleted, if that will likely free space. -/
def likelyFreed (st : FileStat) : BitVec 64 :=
  if st.type ≠ .tDirectory then
    match st.nlink with
    -- the last link
    | 1 => .ofNat 64 st.size
    -- the other link may be that of an optimised file
    | 2 => .ofNat 64 st.size
    | _ => 0
  else 0

/-- Make the directory accessible. -/
def makeAccessible (path : Path) (st : FileStat) : Action Unit :=
  if st.mode &&& permMask ≠ permMask then
    fchmodatTryNoFollow path (st.mode ||| permMask)
  else
    pure ()

/-- The loop over the directory at `location`, which messages call `path`. -/
def deleteEntries (child : Path → Path → Deletion → Action Deletion) (location path : Path)
    (d : Deletion) : Action Deletion := do
  let listing ← sys (.readdir location) (sysError "opening directory %1%" [CanonPath.abs path])
  let d ← listing.entries.foldlM (fun d dirent => do
    checkInterrupt
    child location (path ++ [dirent.name]) d) d
  match listing.error with
  | some e => throw (sysError "reading directory %1%" [CanonPath.abs path] e)
  | none => pure d

def deleteBelow (child : Path → Path → Deletion → Action Deletion) (location path : Path)
    (st : FileStat) (d : Deletion) : Action Deletion :=
  if st.type = .tDirectory then do
    makeAccessible location st
    deleteEntries child location path d
  else
    pure d

/-- The recursive `_deletePath`; `parentfd` is the directory open at it. -/
def deletePath_ : (depth : Nat) → (parentfd path : Path) → Deletion → Action Deletion
  | 0, _, _, _ => .spin
  | depth + 1, parentfd, path, d => do
      checkInterrupt
      match fromFilename (filename path) with
      | .error e => throw e
      | .ok name =>
          match ← maybeLstat (parentfd ++ [name]) with
          | none => pure d
          | some st =>
              let d ← deleteBelow (deletePath_ depth) (parentfd ++ [name]) path st
                { d with bytesFreed := d.bytesFreed + likelyFreed st }
              let r ← unlinkat (parentfd ++ [name]) (st.type = .tDirectory)
              return { d with ex := keepFirst path d.ex r }

/-- `deletePath(path, bytesFreed)`, which returns the bytes freed. -/
def deletePath (depth : Nat) (path : Path) : Action (BitVec 64) := do
  match ← trySys (.followDirectory (parentDir path)) with
  | .error e =>
      if e = .enoent then pure 0
      else throw (sysError "opening directory %s" [CanonPath.abs (parentDir path)] e)
  | .ok dirfd =>
      let d ← deletePath_ depth dirfd path ⟨0, none⟩
      match d.ex with
      | some e => throw e
      | none => return d.bytesFreed

/-! ## Reading a history -/

/-- A call of a run, with the state it was made in and the answer. -/
abbrev Event := Foundation.Event StoreInterface World

/-- What an `unlinkat` that failed was about.  That the entry has gone already is
no failure. -/
def refusal : Event → Option (Path × Errno)
  | ⟨.sys (.unlink p), _, .error e⟩ => if e = .enoent then none else some (p, e)
  | ⟨.sys (.rmdir p), _, .error e⟩ => if e = .enoent then none else some (p, e)
  | _ => none

/-- A non-directory that a call has unlinked, and the state it was in before. -/
def removal : Event → Option (Path × FileSystem)
  | ⟨.sys (.unlink p), w, .ok ()⟩ => some (p, w.fs)
  | _ => none

/-- The size of a non-directory with at most two links. -/
def sizeUpToTwoLinks (p : Path) (fs : FileSystem) : BitVec 64 :=
  match fs.node p with
  | some (.leaf i) => if fs.nlink i ≤ 2 then .ofNat 64 (fs.inode i).kind.size else 0
  | _ => 0

/-- The non-directories that were unlinked, in order. -/
def unlinked (es : List Event) : List Path := (es.filterMap removal).map (·.1)

/-- The sum of the sizes of the removed non-directories whose link count at their
removal was at most two. -/
def freed (es : List Event) : BitVec 64 :=
  ((es.filterMap removal).map fun x => sizeUpToTwoLinks x.1 x.2).sum

/-- What is thrown for the first `unlinkat` that failed; `name` is how messages
name a node. -/
def firstRefusal (name : Path → Path) (es : List Event) : Option Exception :=
  (es.findSome? refusal).map fun x => sysError "cannot unlink %1%" [CanonPath.abs (name x.1)] x.2

/-- A call other than `unlinkat` has failed, or an interrupt has come.  That there
is nothing to find, that the system has no `fchmodat2` and that there is no `/proc`
are no failures. -/
def Failure : Event → Prop
  | ⟨.checkInterrupt, _, pending⟩ => pending = true
  | ⟨.sys (.followDirectory _), _, .error e⟩ => e ≠ .enoent
  | ⟨.sys (.lstat _), _, .error e⟩ => e ≠ .enoent ∧ e ≠ .enotdir
  | ⟨.sys (.chmod _ _), _, .error e⟩ => e ≠ .enosys
  | ⟨.sys (.openPath _), _, .error _⟩ => True
  | ⟨.sys (.chmodProc _ _), _, .error e⟩ => e ≠ .enoent
  | ⟨.sys (.fchmodat _ _), _, .error _⟩ => True
  | ⟨.sys (.readdir _), _, .error _⟩ => True
  | ⟨.sys (.readdir _), _, .ok listing⟩ => listing.error ≠ none
  | _ => False

/-- The call is about a node at or below `location`; if it is one that would follow
a symlink or enter a directory, it is made at a directory. -/
def Descends (location : Path) : Event → Prop
  | ⟨.checkInterrupt, _, _⟩ => True
  | ⟨.sys (.lstat q), _, _⟩ => location <+: q
  | ⟨.sys (.unlink q), _, _⟩ => location <+: q
  | ⟨.sys (.chmod q _), w, _⟩ => location <+: q ∧ w.fs.IsDir q
  | ⟨.sys (.openPath q), w, _⟩ => location <+: q ∧ w.fs.IsDir q
  | ⟨.sys (.chmodProc q _), w, _⟩ => location <+: q ∧ w.fs.IsDir q
  | ⟨.sys (.fchmodat q _), w, _⟩ => location <+: q ∧ w.fs.IsDir q
  | ⟨.sys (.readdir q), w, _⟩ => location <+: q ∧ w.fs.IsDir q
  | ⟨.sys (.rmdir q), w, _⟩ => location <+: q ∧ w.fs.IsDir q
  | _ => False

/-- A call says that there is nothing only where there is nothing. -/
structure Honest (faults : Faults) : Prop where
  followDirectory : ∀ p, ¬ faults (.followDirectory p) .enoent
  lstat : ∀ p e, faults (.lstat p) e → e ≠ .enoent ∧ e ≠ .enotdir
  unlink : ∀ p, ¬ faults (.unlink p) .enoent
  rmdir : ∀ p, ¬ faults (.rmdir p) .enoent

/-- The entries of directories have the names of files. -/
def FileNames (fs : FileSystem) : Prop :=
  ∀ p name, fs.node (p ++ [name]) ≠ none → fromFilename name = .ok name

/-- An `unlinkat` of the node has failed, and not for what was in it. -/
def Refused (env : Environment) (es : List Event) (p : Path) : Prop :=
  ∃ ev ∈ es, ∃ e, refusal ev = some (p, e) ∧ (env.faults (.unlink p) e ∨ env.faults (.rmdir p) e)

end DeletePath
end Store
end Archinix
