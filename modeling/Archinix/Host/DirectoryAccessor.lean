import Archinix.Host.PosixSourceAccessor

/-!
# Accessors that cache directory descriptors

`PosixDirectorySourceAccessor` of `posix-source-accessor.cc` with its cache, and
`openFileEnsureBeneathNoSymlinks` of `file-system-at.cc`, over a tree at rest that refuses
what it likes.  A descriptor is the path of what is open.

Whatever an accessor does with caches, its own and those of others, goes through `Caches`;
the functions are the same for an accessor without one.
-/

namespace Archinix
namespace Host

open Foundation Util

/-- An exception, with what the handlers look at. -/
inductive AccessorException where
  | symlinkNotAllowed (path : CanonPath) (e : Error)
  | sysError (errNo : Errno) (e : Error)
  | other (e : Error)
  deriving DecidableEq

/-- `path.rel()`. -/
def CanonPath.rel (path : CanonPath) : Bytes := (CanonPath.abs path).drop 1

/-- `SymlinkNotAllowed(path)`. -/
def symlinkNotAllowed (path : CanonPath) : AccessorException :=
  .symlinkNotAllowed path ⟨.symlinkNotAllowed,
    "relative path '%s' points to a symlink, which is not allowed", [CanonPath.rel path]⟩

/-! ## System calls -/

/-- A tree at rest, as the system shows it to the process. -/
structure TreeView where
  fs : FileSystem
  kernel : Kernel
  /-- Whether there is an `openat2`. -/
  hasOpenat2 : Bool
  /-- Why a name is not looked up in a directory: it may not be searched, or the name is
  too long. -/
  refusesLookup : Path → Name → Option Errno
  /-- Why what a path leads to is not opened for reading. -/
  refusesOpen : Path → Option Errno
  /-- `getGlobalFdLimit()`. -/
  globalFdLimit : Nat

/-- What a file is opened for.  None of the flags follows symlinks. -/
inductive OpenFlags where
  /-- `O_DIRECTORY | O_NOFOLLOW | O_PATH`. -/
  | path
  /-- `O_DIRECTORY | O_RDONLY`. -/
  | directory
  /-- `O_RDONLY`. -/
  | file
  deriving DecidableEq

/-- `PATH_MAX`, with the byte that ends the string. -/
def pathMax : Nat := 4096

namespace TreeView

variable (v : TreeView)

/-- A name in a directory; this is `fstatat` with `AT_SYMLINK_NOFOLLOW`. -/
def lookup (dirFd : Path) (name : Name) : Except Errno Node :=
  match v.refusesLookup dirFd name with
  | some e => .error e
  | none =>
      match v.fs.node (dirFd ++ [name]) with
      | some node => .ok node
      | none => .error .enoent

/-- `S_ISLNK`. -/
def isSymlink : Node → Bool
  | .directory _ _ => false
  | .leaf i =>
      match (v.fs.inode i).kind with
      | .symlink _ => true
      | _ => false

/-- What a path leads to, opened for reading. -/
def openForReading (p : Path) : Except Errno Path :=
  match v.refusesOpen p with
  | some e => .error e
  | none => .ok p

/-- `openat(dirFd, name, flags | O_NOFOLLOW)`. -/
def openat (flags : OpenFlags) (dirFd : Path) (name : Name) : Except Errno Path :=
  match v.lookup dirFd name with
  | .error e => .error e
  | .ok (.directory _ _) =>
      if flags = .path then .ok (dirFd ++ [name]) else v.openForReading (dirFd ++ [name])
  | .ok (.leaf i) =>
      -- a directory was asked for before the symlink is looked at
      if flags ≠ .file then .error .enotdir
      else if v.isSymlink (.leaf i) then .error .eloop
      else v.openForReading (dirFd ++ [name])

/-- The walk of `openat2` with `RESOLVE_BENEATH | RESOLVE_NO_SYMLINKS`. -/
def resolveBeneath (flags : OpenFlags) (dirFd : Path) : CanonPath → Except Errno Path
  | [] => .error .enoent
  | name :: rest =>
      match v.lookup dirFd name with
      | .error e => .error e
      | .ok (.directory _ _) =>
          if rest = [] then v.openForReading (dirFd ++ [name])
          else resolveBeneath flags (dirFd ++ [name]) rest
      | .ok (.leaf i) =>
          if v.isSymlink (.leaf i) then .error .eloop
          else if rest ≠ [] ∨ flags ≠ .file then .error .enotdir
          else v.openForReading (dirFd ++ [name])

/-- `openat2(dirFd, path, flags, 0, RESOLVE_BENEATH | RESOLVE_NO_SYMLINKS)`. -/
def openat2 (flags : OpenFlags) (dirFd : Path) (path : CanonPath) : Except Errno Path :=
  if pathMax ≤ (CanonPath.rel path).length then .error .enametoolong
  else v.resolveBeneath flags dirFd path

/-- `readlinkat(dirFd, name)`. -/
def readlinkat (dirFd : Path) (name : Name) : Except Errno Bytes :=
  match v.lookup dirFd name with
  | .error e => .error e
  | .ok (.directory _ _) => .error .einval
  | .ok (.leaf i) =>
      match (v.fs.inode i).kind with
      | .symlink target => .ok target
      | _ => .error .einval

/-- A path leads from one directory to another, through directories only. -/
inductive Leads : Path → CanonPath → Path → Prop
  | here (dirFd : Path) : Leads dirFd [] dirFd
  | into {dirFd fd : Path} {name : Name} {rest : CanonPath} {mode : Mode} {mtime : Time}
      (hname : v.lookup dirFd name = .ok (.directory mode mtime))
      (hrest : Leads (dirFd ++ [name]) rest fd) : Leads dirFd (name :: rest) fd

end TreeView

/-! ## Opening beneath a directory -/

section Open

variable (v : TreeView) {m : Type → Type} [Monad m] [MonadExcept AccessorException m]

/-- `maybeFstatat(dirFd, name)`. -/
def maybeFstatat (dirFd : Path) (name : Name) : m (Option Node) :=
  match v.lookup dirFd name with
  | .ok node => pure (some node)
  | .error e =>
      if e = .enoent ∨ e = .enotdir then pure none
      else throw (.sysError e ⟨.error, "getting status of %s", [CanonPath.abs (dirFd ++ [name])]⟩)

/-- After an `openat` that has failed: throw if there is a symlink. -/
def refuseSymlink (errNo : Errno) (dirFd : Path) (component : Name) (path : CanonPath) : m Unit :=
  if errNo = .enotdir then do
    match ← maybeFstatat v dirFd component with
    | some node => if v.isSymlink node then throw (symlinkNotAllowed path) else pure ()
    | none => pure ()
  else if errNo = .eloop then throw (symlinkNotAllowed path)
  else pure ()

/-- Give the descriptor of an intermediate directory away, if there is one and it is wanted. -/
def handOver (dirFdCallback : Option (Path → CanonPath → m Unit)) (parentFd : Option Path)
    (relPath : CanonPath) : m Unit :=
  match dirFdCallback, parentFd with
  | some callback, some fd => callback fd relPath
  | _, _ => pure ()

/-- The loop over all components but the last, with the descriptor of the path so far. -/
def openComponents (dirFdCallback : Option (Path → CanonPath → m Unit)) (dirFd : Path) :
    (parentFd : Option Path) → (currentRelPath : CanonPath) → List Name → m (Except Errno Path)
  | parentFd, _, [] => pure (.ok (parentFd.getD dirFd))
  | parentFd, prevRelPath, component :: rest =>
      match v.openat .path (parentFd.getD dirFd) component with
      | .error e => do
          refuseSymlink v e (parentFd.getD dirFd) component (prevRelPath ++ [component])
          pure (.error e)
      | .ok parentFd2 => do
          handOver dirFdCallback parentFd prevRelPath
          openComponents dirFdCallback dirFd (some parentFd2) (prevRelPath ++ [component]) rest

/-- `openFileEnsureBeneathNoSymlinksIterative`. -/
def openFileEnsureBeneathNoSymlinksIterative (flags : OpenFlags) (dirFd : Path) (path : CanonPath)
    (dirFdCallback : Option (Path → CanonPath → m Unit)) : m (Except Errno Path) := do
  match ← openComponents v dirFdCallback dirFd none [] path.dropLast with
  | .error e => pure (.error e)
  | .ok parentFd =>
      let lastComponent := path.getLast?.getD []
      match v.openat flags parentFd lastComponent with
      | .error e => do
          refuseSymlink v e parentFd lastComponent path
          pure (.error e)
      | .ok res => pure (.ok res)

/-- `openFileEnsureBeneathNoSymlinks`: a descriptor, or the error of an invalid one. -/
def openFileEnsureBeneathNoSymlinks (flags : OpenFlags) (dirFd : Path) (path : CanonPath)
    (dirFdCallback : Option (Path → CanonPath → m Unit)) : m (Except Errno Path) :=
  if v.hasOpenat2 then
    match v.openat2 flags dirFd path with
    | .error e => if e = .eloop then throw (symlinkNotAllowed path) else pure (.error e)
    | .ok fd => pure (.ok fd)
  else openFileEnsureBeneathNoSymlinksIterative v flags dirFd path dirFdCallback

/-- `readLinkAt(dirFd, name)`. -/
def readLinkAt (dirFd : Path) (name : Name) : m Bytes :=
  match v.readlinkat dirFd name with
  | .ok target => pure target
  | .error e =>
      throw (.sysError e
        ⟨.error, "reading symbolic link %1%", [CanonPath.abs (dirFd ++ [name])]⟩)

end Open

/-! ## The accessor -/

/-- A `PosixDirectorySourceAccessor` apart from what is in its cache. -/
structure DirectoryAccessor where
  dirFd : Path
  fsPath : Path
  dirFdCacheSize : Nat
  deriving DecidableEq

/-- What an accessor does with caches. -/
structure Caches (m : Type → Type) where
  /-- Whether `dirFdCache` points to a cache. -/
  dirFdCache : Bool
  maybeEvictFromGlobalCaches : m Unit
  /-- The loop over `cache->get(p)`, from a path up to the root. -/
  nearest : CanonPath → m (Option (CanonPath × Path))
  insertIntoDirFdCache : CanonPath → Path → m Unit

/-- A call on an accessor.  The last one is the `readDirectory` with a callback. -/
inductive AccessorCall where
  | maybeLstat (path : CanonPath)
  | readFile (path : CanonPath)
  | readDirectory (path : CanonPath)
  | readLink (path : CanonPath)
  | readSubdirectory (dirPath : CanonPath)
  deriving DecidableEq

/-- The path a call is about. -/
def AccessorCall.path : AccessorCall → CanonPath
  | .maybeLstat path | .readFile path | .readDirectory path | .readLink path => path
  | .readSubdirectory dirPath => dirPath

/-- What a call returns; the callback's arguments for a call with a callback. -/
inductive AccessorAnswer where
  | stat (st : Option Stat)
  | file (size : Nat) (contents : Writer Unit)
  | entries (entries : List (Name × Option FileType))
  | target (target : Bytes)
  | subdirectory (accessor : DirectoryAccessor) (entries : List (Name × Option FileType))

namespace DirectoryAccessor

variable (v : TreeView) (a : DirectoryAccessor)

def showPath (path : CanonPath) : Bytes := PosixDirectorySourceAccessor.showPath a.fsPath path

/-- A `SymlinkNotAllowed` that was caught is thrown again with the path from the root of
the accessor, which `anchor` is the beginning of. -/
def fixUp {m : Type → Type} [Monad m] [MonadExcept AccessorException m] {α : Type} (anchor : CanonPath)
    (fmt : String) (body : m α) : m α :=
  tryCatch body fun
    | .symlinkNotAllowed path _ =>
        throw (.symlinkNotAllowed (anchor ++ path)
          ⟨.symlinkNotAllowed, fmt, [a.showPath (anchor ++ path)]⟩)
    | e => throw e

variable {m : Type → Type} [Monad m] [MonadExcept AccessorException m] (c : Caches m)

def makeDirFdCallback : Option (Path → CanonPath → m Unit) :=
  if c.dirFdCache then some fun fd key => c.insertIntoDirFdCache key fd else none

/-- `openParent` from a directory that is open, the root or a cached one. -/
def openParentFrom (startFd : Path) (anchor relPath : CanonPath) :
    m (Except Errno (Path × Option Path)) :=
  let callback := (makeDirFdCallback c).map fun base fd relKey => base fd (anchor ++ relKey)
  a.fixUp anchor "path '%s' (or its ancestor) is a symlink" do
    match ← openFileEnsureBeneathNoSymlinks v .directory startFd relPath callback with
    | .ok fd => pure (.ok (fd, some fd))
    | .error e => pure (.error e)

def openParent (path : CanonPath) : m (Except Errno (Path × Option Path)) :=
  let parent := path.dropLast
  if parent = [] then pure (.ok (a.dirFd, none))
  else do
    c.maybeEvictFromGlobalCaches
    match ← if c.dirFdCache then c.nearest parent else pure none with
    | some (p, fd) =>
        if p = parent then pure (.ok (fd, some fd))
        else openParentFrom v a c fd p (parent.drop p.length)
    | none => openParentFrom v a c a.dirFd [] parent

/-- Cache a descriptor that is owned. -/
def upsertParent (parent : CanonPath) (owning : Option Path) : m Unit :=
  match owning with
  | some fd => if c.dirFdCache then c.insertIntoDirFdCache parent fd else pure ()
  | none => pure ()

/-- `openParentAndUpsert(path, true)`, with `none` for an invalid descriptor. -/
def openParentAndUpsert (path : CanonPath) : m (Option Path) := do
  match ← openParent v a c path with
  | .error e =>
      if e = .enoent ∨ e = .enotdir then pure none
      else throw (.sysError e ⟨.error, "opening directory '%1%'", [a.showPath path.dropLast]⟩)
  | .ok (fd, owning) => do
      upsertParent c path.dropLast owning
      pure (some fd)

/-- `openParentAndUpsert(path, false)`. -/
def openExistingParent (path : CanonPath) : m Path := do
  match ← openParentAndUpsert v a c path with
  | some fd => pure fd
  | none => throw (.other ⟨.fileNotFound, "path '%s' does not exist", [a.showPath path]⟩)

/-- The last component of a path, opened in its parent directory. -/
def openInParent (flags : OpenFlags) (path : CanonPath) : m (Except Errno Path) := do
  let parentFd ← openExistingParent v a c path
  a.fixUp path.dropLast "path '%s' is a symlink"
    (openFileEnsureBeneathNoSymlinks v flags parentFd [path.getLast?.getD []] none)

def statNode (node : Node) : Stat := sourceAccessorStatFromPosixStat (v.fs.statNode node)

def maybeLstat (path : CanonPath) : m (Option Stat) :=
  if path = [] then pure ((v.fs.node a.dirFd).map (statNode v))
  else do
    match ← openParentAndUpsert v a c path with
    | none => pure none
    | some parentFd =>
        match v.lookup parentFd (path.getLast?.getD []) with
        | .ok node => pure (some (statNode v node))
        | .error e =>
            if e = .enoent then pure none
            else throw (.sysError e ⟨.error, "getting status of '%1%'", [a.showPath path]⟩)

def readFile (path : CanonPath) : m (Nat × Writer Unit) :=
  if path = [] then
    throw (.other ⟨.notARegularFile, "'%s' is not a regular file", [a.showPath path]⟩)
  else do
    match ← openInParent v a c .file path with
    | .error e =>
        if e = .enoent then
          throw (.other ⟨.fileNotFound, "file '%s' does not exist", [a.showPath path]⟩)
        else throw (.sysError e ⟨.error, "opening '%s'", [a.showPath path]⟩)
    | .ok fd =>
        let notRegular :=
          .other ⟨.notARegularFile, "file '%s' is not a regular file", [a.showPath path]⟩
        match v.fs.node fd with
        | some (.leaf i) =>
            match (v.fs.inode i).kind with
            | .regular _ =>
                match PosixFileSourceAccessor.readFile v.fs v.kernel (a.fsPath ++ path) i [] with
                | .ok file => pure file
                | .error e => throw (.other e)
            | _ => throw notRegular
        | _ => throw notRegular

def openSubdirectory (path : CanonPath) : m Path :=
  let failed errNo := .sysError errNo ⟨.error, "opening directory '%s'", [a.showPath path]⟩
  if path = [] then
    match v.openForReading a.dirFd with
    | .ok fd => pure fd
    | .error e => throw (failed e)
  else do
    match ← openInParent v a c .directory path with
    | .ok fd => pure fd
    | .error e =>
        if e = .enotdir then
          throw (.other ⟨.notADirectory, "'%s' is not a directory", [a.showPath path]⟩)
        else throw (failed e)

def readEntriesFrom (dirFd : Path) : List (Name × Option FileType) :=
  PosixDirectorySourceAccessor.readEntriesFrom v.fs v.kernel dirFd

def readDirectory (path : CanonPath) : m (List (Name × Option FileType)) :=
  a.fixUp [] "path '%s' is a symlink" do
    let fd ← openSubdirectory v a c path
    pure (readEntriesFrom v fd)

/-- `readDirectory(dirPath, callback)`: an accessor without a cache, and the entries. -/
def readSubdirectory (dirPath : CanonPath) :
    m (DirectoryAccessor × List (Name × Option FileType)) := do
  let fd ← openSubdirectory v a c dirPath
  pure (⟨fd, a.fsPath ++ dirPath, 0⟩, readEntriesFrom v fd)

def readLink (path : CanonPath) : m Bytes :=
  let notASymlink := .other ⟨.notASymlink, "file '%s' is not a symlink", [a.showPath path]⟩
  a.fixUp [] "path '%s' is a symlink" do
    if path = [] then throw notASymlink
    else do
      let parentFd ← openExistingParent v a c path
      tryCatch (readLinkAt v parentFd (path.getLast?.getD [])) fun
        | .sysError errNo e => if errNo = .einval then throw notASymlink else throw (.sysError errNo e)
        | e => throw e

/-- A call. -/
def call : AccessorCall → m AccessorAnswer
  | .maybeLstat path => do return .stat (← maybeLstat v a c path)
  | .readFile path => do
      let (size, contents) ← readFile v a c path
      return .file size contents
  | .readDirectory path => do return .entries (← readDirectory v a c path)
  | .readLink path => do return .target (← readLink v a c path)
  | .readSubdirectory dirPath => do
      let (accessor, entries) ← readSubdirectory v a c dirPath
      return .subdirectory accessor entries

/-- The accessor has no cache, and there are no other caches. -/
def noCaches : Caches (Except AccessorException) where
  dirFdCache := false
  maybeEvictFromGlobalCaches := pure ()
  nearest _ := pure none
  insertIntoDirFdCache _ _ := pure ()

/-- What a call on an accessor without a cache returns. -/
def uncached (request : AccessorCall) : Except AccessorException AccessorAnswer :=
  call v a noCaches request

end DirectoryAccessor

end Host
end Archinix
