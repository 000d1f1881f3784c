import Archinix.Util.Archive

/-!
# In-memory file systems

`MemorySourceAccessor` and `MemorySink` of `memory-source-accessor.cc`: the
sink a parser writes a tree into, and the accessor a dumper reads it back from.
A `File *` of the source is the path it was opened at.
-/

namespace Archinix
namespace Util

open Foundation

/-- Why `MemorySourceAccessor::open` could not walk a path: the class and
message of its exception, and how many components were left. -/
structure OpenFailure where
  cls : ErrorClass
  fmt : String
  remaining : Nat

namespace Tree

/-- `std::map::insert` of a key that is not there yet. -/
def insertEntry (name : Name) (file : Tree) : List (Name × Tree) → List (Name × Tree)
  | [] => [(name, file)]
  | e :: rest => if e.1 < name then e :: insertEntry name file rest else (name, file) :: e :: rest

/-- Replace the object stored under a key. -/
def replaceEntry (name : Name) (file : Tree) (entries : List (Name × Tree)) :
    List (Name × Tree) :=
  entries.map fun e => if e.1 = name then (e.1, file) else e

/-- The chain of directories `open` inserts for missing components, ending in
the object to create. -/
def chain (create : Tree) : CanonPath → Tree
  | [] => create
  | name :: rest => .directory [(name, chain create rest)]

/-- `MemorySourceAccessor::open` below an existing root, with `create` given: the
tree in which `path` exists. -/
def openCreate (cur : Tree) (path : CanonPath) (create : Tree) : Except OpenFailure Tree :=
  match cur, path with
  | cur, [] => .ok cur
  | .directory entries, name :: rest =>
      match entries.find? (·.1 = name) with
      | some (_, child) =>
          (child.openCreate rest create).map fun file =>
            .directory (replaceEntry name file entries)
      | none => .ok (.directory (insertEntry name (chain create rest) entries))
  | .symlink _, name :: rest =>
      .error ⟨.symlinkNotAllowed, "file '%s' is a symlink", (name :: rest).length⟩
  | .regular _ _, name :: rest =>
      .error ⟨.notADirectory, "file '%s' is not a directory", (name :: rest).length⟩

/-- `MemorySourceAccessor::open` below an existing root, without `create`. -/
def openExisting : Tree → CanonPath → Except OpenFailure (Option Tree)
  | cur, [] => .ok (some cur)
  | .directory entries, name :: rest =>
      match entries.find? (·.1 = name) with
      | some (_, child) => child.openExisting rest
      | none => .ok none
  | .symlink _, name :: rest =>
      .error ⟨.symlinkNotAllowed, "file '%s' is a symlink", (name :: rest).length⟩
  | .regular _ _, _ :: _ => .ok none

/-- Write through a `File *` opened at a path. -/
def modifyAt (update : Tree → Tree) : Tree → CanonPath → Tree
  | cur, [] => update cur
  | .directory entries, name :: rest =>
      .directory (entries.map fun e => if e.1 = name then (e.1, modifyAt update e.2 rest) else e)
  | cur, _ :: _ => cur
termination_by structural _ path => path

/-- `File::lstat`. -/
def lstat : Tree → Stat
  | .regular executable _ => ⟨.tRegular, executable⟩
  | .directory _ => ⟨.tDirectory, false⟩
  | .symlink _ => ⟨.tSymlink, false⟩

def setExecutable : Tree → Tree
  | .regular _ contents => .regular true contents
  | t => t

def appendContents (data : Bytes) : Tree → Tree
  | .regular executable contents => .regular executable (contents ++ data)
  | t => t

def setTarget (target : Bytes) : Tree → Tree
  | .symlink _ => .symlink target
  | t => t

end Tree

section Accessor

/- The display prefix only reaches messages. -/
variable (displayPrefix : Bytes)

def showPath (path : CanonPath) : Bytes := displayPrefix ++ path.abs

/-- The exception a failed walk of `path` raises. -/
def OpenFailure.toError (path : CanonPath) (failure : OpenFailure) : Error :=
  ⟨failure.cls, failure.fmt, [showPath displayPrefix (path.take (path.length - failure.remaining))]⟩

namespace MemorySourceAccessor

/-- `open(path, std::nullopt)`. -/
def openFile (root : Option Tree) (path : CanonPath) : Except Error (Option Tree) :=
  match root with
  | none => .ok none
  | some t => (t.openExisting path).mapError (OpenFailure.toError displayPrefix path)

/-- `open(path, std::nullopt)` where a null result is an error. -/
def openFound (root : Option Tree) (path : CanonPath) : Except Error Tree := do
  match ← openFile displayPrefix root path with
  | some file => .ok file
  | none => .error ⟨.fileNotFound, "file '%s' does not exist", [showPath displayPrefix path]⟩

def readFile (root : Option Tree) (path : CanonPath) : Except Error (Nat × Writer Unit) := do
  match ← openFound displayPrefix root path with
  | .regular _ contents => .ok (contents.length, Emit.tellAll contents)
  | .directory _ =>
      .error ⟨.notARegularFile, "file '%s' is not a regular file", [showPath displayPrefix path]⟩
  | .symlink _ =>
      .error ⟨.symlinkNotAllowed, "file '%s' is a symlink", [showPath displayPrefix path]⟩

def readDirectory (root : Option Tree) (path : CanonPath) :
    Except Error (List (Name × Option FileType)) := do
  match ← openFound displayPrefix root path with
  | .directory entries => .ok (entries.map fun e => (e.1, some e.2.lstat.type))
  | .regular _ _ =>
      .error ⟨.notADirectory, "file '%s' is not a directory", [showPath displayPrefix path]⟩
  | .symlink _ =>
      .error ⟨.symlinkNotAllowed, "file '%s' is a symlink", [showPath displayPrefix path]⟩

def readLink (root : Option Tree) (path : CanonPath) : Except Error Bytes := do
  match ← openFound displayPrefix root path with
  | .symlink target => .ok target
  | _ => .error ⟨.notASymlink, "file '%s' is not a symbolic link", [showPath displayPrefix path]⟩

end MemorySourceAccessor

/-- The accessor over an in-memory root. -/
def memorySourceAccessor (root : Option Tree) : SourceAccessor where
  maybeLstat path :=
    (MemorySourceAccessor.openFile displayPrefix root path).map (Option.map Tree.lstat)
  readFile := MemorySourceAccessor.readFile displayPrefix root
  readDirectory := MemorySourceAccessor.readDirectory displayPrefix root
  readLink := MemorySourceAccessor.readLink displayPrefix root
  showPath := showPath displayPrefix
  subdirRelPath path := path

namespace MemorySink

/-- `dst.open(path, create)` as the sink uses it: the root in which the object
exists, and the object.  `what` names the kind of object in messages. -/
def openNode (what : String) (root : Option Tree) (path : CanonPath) (create : Tree) :
    Except Error (Tree × Tree) :=
  let missing : Error := ⟨.error, what ++
    " '%s' cannot be created because some parent directories don't exist",
    [showPath displayPrefix path]⟩
  match root, path with
  | none, [] => .ok (create, create)
  | none, _ :: _ => .error missing
  | some t, path => do
      let t' ← (t.openCreate path create).mapError (OpenFailure.toError displayPrefix path)
      match t'.get? path with
      | some file => .ok (t', file)
      | none => .error missing

def createDirectory (root : Option Tree) (path : CanonPath) : Except Error (Option Tree) := do
  let (root', file) ← openNode displayPrefix "directory" root path (.directory [])
  match file with
  | .directory _ => .ok (some root')
  | _ => .error ⟨.notADirectory, "file '%s' is not a directory", [showPath displayPrefix path]⟩

def createRegularFile (root : Option Tree) (path : CanonPath) : Except Error (Option Tree) := do
  let (root', file) ← openNode displayPrefix "file" root path (.regular false [])
  match file with
  | .regular _ _ => .ok (some root')
  | _ => .error ⟨.notARegularFile, "file '%s' is not a regular file", [showPath displayPrefix path]⟩

def createSymlink (root : Option Tree) (path : CanonPath) (target : Bytes) :
    Except Error (Option Tree) := do
  let (root', file) ← openNode displayPrefix "symlink" root path (.symlink [])
  match file with
  | .symlink _ => .ok (some (root'.modifyAt (Tree.setTarget target) path))
  | _ => .error ⟨.notASymlink, "file '%s' is not a symbolic link", [showPath displayPrefix path]⟩

/-- The effect of one call.  `preallocateContents` reserves memory only, and
nothing happens when a callback returns. -/
def step (root : Option Tree) : SinkCall → Except Error (Option Tree)
  | .createDirectory path => createDirectory displayPrefix root path
  | .createRegularFile path => createRegularFile displayPrefix root path
  | .createSymlink path target => createSymlink displayPrefix root path target
  | .isExecutable path => .ok (root.map (·.modifyAt Tree.setExecutable path))
  | .contents path data => .ok (root.map (·.modifyAt (Tree.appendContents data) path))
  | .preallocateContents _ _ => .ok root
  | .closeDirectory _ => .ok root
  | .closeRegularFile _ => .ok root

/-- The effect of a list of calls, cut short by the first exception. -/
def run (root : Option Tree) (calls : List SinkCall) : Except Error (Option Tree) :=
  calls.foldlM (step displayPrefix) root

end MemorySink

/-- `parseDump` into a fresh `MemorySink`: the root it builds and the bytes left
unread. -/
def parseIntoMemory (reads : ReadSizes) (src : Bytes) : Except Error (Option Tree × Bytes) := do
  let parsed := parseDump ⟨false, reads⟩ src
  let root ← MemorySink.run displayPrefix none parsed.emitted
  let (_, rest) ← parsed.result
  .ok (root, rest)

end Accessor

end Util
end Archinix
