import Archinix.Host.SystemCalls
import Archinix.Util.MemorySource

/-!
# The file system as a source accessor

`posix-source-accessor.cc` over a file system at rest: what the accessors made by
`makeFSSourceAccessor` answer.  Descriptors are the paths and inodes they were
opened at.  The order in which a directory is enumerated and the sizes of reads are
the kernel's; the functions take them as a parameter.
-/

namespace Archinix
namespace Host

open Foundation Util

/-- In what order directories are enumerated, and how reads are cut. -/
structure Kernel where
  order : Path → List DirEntry → List DirEntry
  perm_order : ∀ p entries, (order p entries).Perm entries
  reads : ReadSizes

instance : Inhabited Kernel := ⟨⟨fun _ entries => entries, fun _ _ => .refl _, .whole⟩⟩

/-- `sourceAccessorStatFromPosixStat`. -/
def sourceAccessorStatFromPosixStat (st : FileStat) : Stat :=
  ⟨st.type, st.type = .tRegular && Mode.isExecutable st.mode⟩

/-- `entries.emplace(name, type)`: a key that is there already stays. -/
def emplace (name : Name) (type : Option FileType) :
    List (Name × Option FileType) → List (Name × Option FileType)
  | [] => [(name, type)]
  | e :: rest =>
      if e.1 < name then e :: emplace name type rest
      else if e.1 = name then e :: rest
      else (name, type) :: e :: rest

variable (fs : FileSystem) (kernel : Kernel)

/-- `openFileEnsureBeneathNoSymlinks(dirFd, path, O_DIRECTORY)`, one component after
the other. -/
def openDirectoryBeneath (dir : Path) : CanonPath → Except Errno Path
  | [] => .ok dir
  | name :: rest =>
      match fs.node (dir ++ [name]) with
      | some (.directory _ _) => openDirectoryBeneath (dir ++ [name]) rest
      | some (.leaf i) =>
          match (fs.inode i).kind with
          | .symlink _ => .error .eloop
          | _ => .error .enotdir
      | none => .error .enoent

/-- `copyFdRange(fd, 0, nbytes, sink)`. -/
def copyFdRange (fsPath : Path) (contents : Bytes) (nbytes : Nat) : Writer Unit := do
  (kernel.reads.cut (contents.take nbytes)).forM Emit.tellAll
  if contents.length < nbytes then
    throw ⟨.endOfFile, "unexpected end-of-file reading from %1%", [CanonPath.abs fsPath]⟩

/-! ## PosixFileSourceAccessor -/

namespace PosixFileSourceAccessor

variable (fsPath : Path) (fd : Nat)

/-- `fsPath` with a path below it, and no slash where there is none. -/
def showPath (path : CanonPath) : Bytes := CanonPath.abs (fsPath ++ path)

def readFile (path : CanonPath) : Except Error (Nat × Writer Unit) :=
  if path ≠ [] then
    .error ⟨.notADirectory, "reading file '%1%': %2%", [showPath fsPath path, str "Not a directory"]⟩
  else
    let size := (fs.statInode fd).size
    match (fs.inode fd).kind with
    | .regular contents => .ok (size, copyFdRange kernel fsPath contents size)
    | _ => .ok (size, copyFdRange kernel fsPath [] size)

def maybeLstat (path : CanonPath) : Except Error (Option Stat) :=
  if path ≠ [] then .ok none else .ok (some (sourceAccessorStatFromPosixStat (fs.statInode fd)))

def readDirectory (path : CanonPath) : Except Error (List (Name × Option FileType)) :=
  .error ⟨.notADirectory, "reading directory '%1%': %2%",
    [showPath fsPath path, str "Not a directory"]⟩

def readLink (path : CanonPath) : Except Error Bytes :=
  if path ≠ [] then
    .error ⟨.notADirectory, "reading symlink '%1%': %2%",
      [showPath fsPath path, str "Not a directory"]⟩
  else .error ⟨.notASymlink, "path '%1%' is not a symlink", [showPath fsPath path]⟩

end PosixFileSourceAccessor

/-- The accessor over an open regular file. -/
def posixFileSourceAccessor (fsPath : Path) (fd : Nat) : SourceAccessor where
  maybeLstat := PosixFileSourceAccessor.maybeLstat fs fd
  readFile := PosixFileSourceAccessor.readFile fs kernel fsPath fd
  readDirectory := PosixFileSourceAccessor.readDirectory fsPath
  readLink := PosixFileSourceAccessor.readLink fsPath
  showPath := PosixFileSourceAccessor.showPath fsPath
  subdirRelPath path := path

/-! ## PosixDirectorySourceAccessor -/

namespace PosixDirectorySourceAccessor

variable (fsPath : Path)

def showPath (path : CanonPath) : Bytes := CanonPath.abs (fsPath ++ path)

/-- `openParentAndUpsert`: the parent directory, `none` for an invalid descriptor. -/
def openParent (path : CanonPath) (ignoreMissing : Bool) : Except Error (Option Path) :=
  match openDirectoryBeneath fs fsPath path.dropLast with
  | .ok dir => .ok (some dir)
  | .error .eloop =>
      .error ⟨.symlinkNotAllowed, "path '%s' (or its ancestor) is a symlink",
        [showPath fsPath path.dropLast]⟩
  | .error _ =>
      if ignoreMissing then .ok none
      else .error ⟨.fileNotFound, "path '%s' does not exist", [showPath fsPath path]⟩

/-- The node at a path that is not the root, `none` where its parent is missing. -/
def lookup (path : CanonPath) (ignoreMissing : Bool) : Except Error (Option Node) := do
  match ← openParent fs fsPath path ignoreMissing with
  | some dir => .ok (fs.node (dir ++ [path.getLast?.getD []]))
  | none => .ok none

def maybeLstat (path : CanonPath) : Except Error (Option Stat) :=
  if path = [] then
    .ok ((fs.node fsPath).map fun n => sourceAccessorStatFromPosixStat (fs.statNode n))
  else do
    let node ← lookup fs fsPath path true
    .ok (node.map fun n => sourceAccessorStatFromPosixStat (fs.statNode n))

def readFile (path : CanonPath) : Except Error (Nat × Writer Unit) :=
  if path = [] then
    .error ⟨.notARegularFile, "'%s' is not a regular file", [showPath fsPath path]⟩
  else do
    match ← lookup fs fsPath path false with
    | none => .error ⟨.fileNotFound, "file '%s' does not exist", [showPath fsPath path]⟩
    | some (.directory _ _) =>
        .error ⟨.notARegularFile, "file '%s' is not a regular file", [showPath fsPath path]⟩
    | some (.leaf i) =>
        match (fs.inode i).kind with
        | .regular _ => PosixFileSourceAccessor.readFile fs kernel (fsPath ++ path) i []
        | .symlink _ =>
            .error ⟨.symlinkNotAllowed, "path '%s' is a symlink", [showPath fsPath path]⟩
        | .special .socket => .error ⟨.error, "opening '%s'", [showPath fsPath path]⟩
        | .special _ =>
            .error ⟨.notARegularFile, "file '%s' is not a regular file", [showPath fsPath path]⟩

/-- `openSubdirectory`. -/
def openSubdirectory (path : CanonPath) : Except Error Path :=
  if path = [] then .ok fsPath
  else do
    match ← lookup fs fsPath path false with
    | none => .error ⟨.error, "opening directory '%s'", [showPath fsPath path]⟩
    | some (.directory _ _) => .ok (fsPath ++ path)
    | some (.leaf i) =>
        match (fs.inode i).kind with
        | .symlink _ =>
            .error ⟨.symlinkNotAllowed, "path '%s' is a symlink", [showPath fsPath path]⟩
        | _ => .error ⟨.notADirectory, "'%s' is not a directory", [showPath fsPath path]⟩

/-- `readEntriesFrom`: a map from names to the type `d_type` gives. -/
def readEntriesFrom (dir : Path) : List (Name × Option FileType) :=
  (kernel.order dir (fs.entries dir)).foldl
    (fun entries dirent => emplace dirent.name (some dirent.type) entries) []

def readDirectory (path : CanonPath) : Except Error (List (Name × Option FileType)) :=
  (openSubdirectory fs fsPath path).map (readEntriesFrom fs kernel)

def readLink (path : CanonPath) : Except Error Bytes :=
  if path = [] then
    .error ⟨.notASymlink, "file '%s' is not a symlink", [showPath fsPath path]⟩
  else do
    match ← lookup fs fsPath path false with
    | none => .error ⟨.error, "reading symbolic link %1%", [showPath fsPath path]⟩
    | some (.directory _ _) =>
        .error ⟨.notASymlink, "file '%s' is not a symlink", [showPath fsPath path]⟩
    | some (.leaf i) =>
        match (fs.inode i).kind with
        | .symlink target => .ok target
        | _ => .error ⟨.notASymlink, "file '%s' is not a symlink", [showPath fsPath path]⟩

end PosixDirectorySourceAccessor

/-- The accessor over an open directory.  `readDirectory` hands its callback an
accessor of the subdirectory, where the directory itself is the root. -/
def posixDirectorySourceAccessor (fsPath : Path) : SourceAccessor where
  maybeLstat := PosixDirectorySourceAccessor.maybeLstat fs fsPath
  readFile := PosixDirectorySourceAccessor.readFile fs kernel fsPath
  readDirectory := PosixDirectorySourceAccessor.readDirectory fs kernel fsPath
  readLink := PosixDirectorySourceAccessor.readLink fs fsPath
  showPath := PosixDirectorySourceAccessor.showPath fsPath
  subdirRelPath _ := []

/-! ## makeFSSourceAccessor -/

/-- `SymlinkSourceAccessor`: the symlink held in memory, without a trailing slash. -/
def symlinkSourceAccessor (target : Bytes) (fsPath : Path) : SourceAccessor :=
  { memorySourceAccessor (CanonPath.abs fsPath) (some (.symlink target)) with
    showPath := fun path =>
      if path = [] then CanonPath.abs fsPath else Util.showPath (CanonPath.abs fsPath) path }

def makeFSSourceAccessor (root : Path) : Except Error SourceAccessor :=
  match fs.node root with
  | none => .error ⟨.error, "opening file %1%", [CanonPath.abs root]⟩
  | some (.directory _ _) => .ok (posixDirectorySourceAccessor fs kernel root)
  | some (.leaf i) =>
      match (fs.inode i).kind with
      | .regular _ => .ok (posixFileSourceAccessor fs kernel root i)
      | .symlink target => .ok (symlinkSourceAccessor target root)
      | .special .socket => .error ⟨.error, "opening file %1%", [CanonPath.abs root]⟩
      | .special _ => .error ⟨.error, "file %1% has an unsupported type", [CanonPath.abs root]⟩

/-- `dumpPath(path, sink)`. -/
def dumpPath (path : Path) : Writer Unit := do
  let accessor ← SourceAccessor.query (makeFSSourceAccessor fs kernel path)
  accessor.dumpPath []

end Host
end Archinix
