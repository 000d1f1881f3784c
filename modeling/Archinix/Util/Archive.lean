import Archinix.Util.FileTree
import Archinix.Util.Serialise

/-!
# The NAR format

`SourceAccessor::dumpPath` and `parseDump` of `archive.cc`.

The parser drives a `FileSystemObjectSink`; the calls it makes are recorded as
`SinkCall`s, in the order the source makes them, with the callback of
`createDirectory` and of `createRegularFile` bracketed by an opening and a
closing call.  A sink is then a function of that list, and a parse that throws
leaves exactly the calls made before the exception.
-/

namespace Archinix
namespace Util

open Foundation

/-- Maximum directory nesting depth for `dumpPath` and `parseDump`. -/
def narMaxDepth : Nat := 64

/-- NAR keywords are all at most ten bytes. -/
def narMaxTag : Nat := 32

def narMaxName : Nat := 255

def narMaxTarget : Nat := 4095

def narVersionMagic1 : Bytes := str "nix-archive-1"

/-! ## Writing an archive -/

/-- `SourceAccessor::Type`. -/
inductive FileType where
  | tRegular
  | tSymlink
  | tDirectory
  | tChar
  | tBlock
  | tSocket
  | tFifo
  | tUnknown
  deriving DecidableEq

/-- The fields of `SourceAccessor::Stat` the dumper reads. -/
structure Stat where
  type : FileType
  isExecutable : Bool

/-- A `SourceAccessor`.  `readFile` gives the size passed to its callback and
the run that then streams the contents; `readDirectory` gives the entries in
map order with the type `readdir` reported, if any.  The callback of the other
`readDirectory` may get an accessor rooted elsewhere: `subdirRelPath` is the
directory's path in that accessor. -/
structure SourceAccessor where
  maybeLstat : CanonPath → Except Error (Option Stat)
  readFile : CanonPath → Except Error (Nat × Writer Unit)
  readDirectory : CanonPath → Except Error (List (Name × Option FileType))
  readLink : CanonPath → Except Error Bytes
  showPath : CanonPath → Bytes
  subdirRelPath : CanonPath → CanonPath

namespace SourceAccessor

/-- Run a fallible accessor query inside the dump. -/
def query {α : Type} (r : Except Error α) : Writer α := ⟨[], r⟩

def lstat (accessor : SourceAccessor) (path : CanonPath) : Writer Stat := do
  match ← query (accessor.maybeLstat path) with
  | some st => pure st
  | none => throw ⟨.fileNotFound, "path '%s' does not exist", [accessor.showPath path]⟩

def dumpContents (accessor : SourceAccessor) (path : CanonPath) : Writer Unit := do
  writeString (str "contents")
  let (size, contents) ← query (accessor.readFile path)
  writeNum size
  contents
  writePadding size

/-- The recursive lambda of `dumpPath`; `levels` is `narMaxDepth - depth`, and
`relPath` what the path is called in the accessor handed down. -/
def dump (accessor : SourceAccessor) : (levels : Nat) → (path relPath : CanonPath) → Writer Unit
  | 0, path, _ => throw ⟨.error, "path '%s' exceeds maximum NAR directory depth of %d",
      [accessor.showPath path, natStr narMaxDepth]⟩
  | levels + 1, path, relPath => do
      let st ← accessor.lstat path
      writeString (str "(")
      match st.type with
      | .tRegular =>
          writeString (str "type")
          writeString (str "regular")
          if st.isExecutable then
            writeString (str "executable")
            writeString (str "")
          accessor.dumpContents path
      | .tDirectory =>
          writeString (str "type")
          writeString (str "directory")
          let entries ← query (accessor.readDirectory path)
          -- NAR cannot represent sockets or fifos: skipped by the type readdir gave
          let entries := entries.filter fun e => e.2 ≠ some .tFifo ∧ e.2 ≠ some .tSocket
          entries.forM fun (name, _) => do
            writeString (str "entry")
            writeString (str "(")
            writeString (str "name")
            writeString name
            writeString (str "node")
            accessor.dump levels (path ++ [name]) (accessor.subdirRelPath relPath ++ [name])
            writeString (str ")")
      | .tSymlink =>
          writeString (str "type")
          writeString (str "symlink")
          writeString (str "target")
          writeString (← query (accessor.readLink path))
      | _ => throw ⟨.error, "file '%s' has an unsupported type", [CanonPath.abs relPath]⟩
      writeString (str ")")

def dumpPath (accessor : SourceAccessor) (path : CanonPath) : Writer Unit := do
  writeString narVersionMagic1
  accessor.dump narMaxDepth path path

end SourceAccessor

/-! ## Reading an archive -/

/-- A call the parser makes on its sink. -/
inductive SinkCall where
  /-- `createDirectory(path, callback)`, before the callback runs. -/
  | createDirectory (path : CanonPath)
  /-- The callback of `createDirectory(path, callback)` has returned. -/
  | closeDirectory (path : CanonPath)
  /-- `createRegularFile(path, func)`, before `func` runs. -/
  | createRegularFile (path : CanonPath)
  /-- `crf.isExecutable()` on the file at `path`. -/
  | isExecutable (path : CanonPath)
  /-- `crf.preallocateContents(size)` on the file at `path`. -/
  | preallocateContents (path : CanonPath) (size : Nat)
  /-- `crf(data)` on the file at `path`. -/
  | contents (path : CanonPath) (data : Bytes)
  /-- The callback of `createRegularFile(path, func)` has returned. -/
  | closeRegularFile (path : CanonPath)
  /-- `createSymlink(path, target)`. -/
  | createSymlink (path : CanonPath) (target : Bytes)
  deriving DecidableEq

/-- How the reads of `Source::drainInto` cut a file's contents into chunks. -/
structure ReadSizes where
  cut : Bytes → List Bytes
  flatten_cut : ∀ contents, (cut contents).flatten = contents
  cut_ne_nil : ∀ contents, ∀ chunk ∈ cut contents, chunk ≠ []

/-- Reads that return a file's contents in one piece. -/
def ReadSizes.whole : ReadSizes where
  cut contents := if contents = [] then [] else [contents]
  flatten_cut contents := by split <;> simp_all
  cut_ne_nil contents chunk hchunk := by split at hchunk <;> simp_all

/-- What the parser asks of its sink and its source: whether the sink sets
`skipContents`, and the sizes of the source's reads. -/
structure ParseMode where
  skipContents : Bool
  reads : ReadSizes

abbrev Parser := Reader SinkCall

/-- Make one call on the sink. -/
def call (c : SinkCall) : Parser Unit := fun src => ⟨[c], .ok ((), src)⟩

def badArchive (fmt : String) (args : List Bytes) : Error :=
  ⟨.serialisationError, "bad archive: " ++ fmt, args⟩

def getString (max : Nat) : Parser Bytes := readString max

def expectTag (expected : Bytes) : Parser Unit := do
  let tag ← getString narMaxTag
  throwIf (tag ≠ expected) (badArchive "expected tag '%s', got '%s'" [expected, tag])

/-- `alignUp(val, 8)` on `uint64_t`. -/
def alignUp (val : Nat) : Except Error Nat :=
  if val > 2 ^ 64 - 1 - 7 then
    .error ⟨.error, "can't align %d to %d: value is too large", [natStr val, natStr 8]⟩
  else
    .ok ((val + 7) / 8 * 8)

section Parse

variable (mode : ParseMode)

/-- `Source::drainInto(sink, len)`: the chunks read before a premature end have
already reached the sink. -/
def drainInto (path : CanonPath) (len : Nat) : Parser Unit := fun src =>
  let chunks := (mode.reads.cut (src.take len)).map (SinkCall.contents path)
  if src.length < len then ⟨chunks, .error endOfString⟩
  else ⟨chunks, .ok ((), src.drop len)⟩

def parseContents (path : CanonPath) : Parser Unit := do
  let size ← readLongLong
  call (.preallocateContents path size)
  if mode.skipContents then
    let left ← fun src => ⟨[], (alignUp size).map (·, src)⟩
    skip left
  else
    drainInto mode path size
    readPadding size

/-- The optional executable marker of a regular file: the tag that follows it. -/
def parseExecutable (path : CanonPath) (tag : Bytes) : Parser Bytes :=
  if tag = str "executable" then do
    let s2 ← getString 0
    throwIf (s2 ≠ []) (badArchive "executable marker has non-empty value" [])
    call (.isExecutable path)
    getString narMaxTag
  else
    pure tag

def parseRegular (path : CanonPath) : Parser Unit := do
  call (.createRegularFile path)
  let tag ← getString narMaxTag
  let tag ← parseExecutable path tag
  throwIf (tag ≠ str "contents") (badArchive "expected tag 'contents', got '%s'" [tag])
  parseContents mode path
  expectTag (str ")")
  call (.closeRegularFile path)

/-- The name check of a directory entry. -/
def invalidEntryName (name : Name) : Bool :=
  name = [] ∨ name = str "." ∨ name = str ".." ∨ (47 : UInt8) ∈ name ∨ (0 : UInt8) ∈ name

/-- The `while (1)` loop over a directory's entries.  Every round reads at
least one byte, so the rounds are bounded by the bytes left; with none left the
next tag cannot be read. -/
def parseEntries (child : Name → Parser Unit) : (rounds : Nat) → (prevName : Name) → Parser Unit
  | 0, _ => throw endOfString
  | rounds + 1, prevName => do
      let tag ← getString narMaxTag
      if tag = str ")" then
        pure ()
      else do
        throwIf (tag ≠ str "entry") (badArchive "expected tag 'entry' or ')', got '%s'" [tag])
        expectTag (str "(")
        expectTag (str "name")
        let name ← getString narMaxName
        throwIf (invalidEntryName name) (badArchive "NAR contains invalid file name '%1%'" [name])
        throwIf (name ≤ prevName) (badArchive "NAR directory is not sorted" [])
        expectTag (str "node")
        child name
        expectTag (str ")")
        parseEntries child rounds name

def parseDirectory (child : Name → Parser Unit) (path : CanonPath) : Parser Unit := do
  call (.createDirectory path)
  (fun src => parseEntries child src.length [] src : Parser Unit)
  call (.closeDirectory path)

def parseSymlink (path : CanonPath) : Parser Unit := do
  expectTag (str "target")
  let target ← getString narMaxTarget
  throwIf (target = [] ∨ (0 : UInt8) ∈ target)
    (badArchive "NAR contains invalid symlink target" [])
  call (.createSymlink path target)
  expectTag (str ")")

/-- `parse`; `levels` is `narMaxDepth - depth`. -/
def parse : (levels : Nat) → CanonPath → Parser Unit
  | 0, _ => throw (badArchive "NAR directory nesting exceeds maximum depth of %d"
      [natStr narMaxDepth])
  | levels + 1, path => do
      expectTag (str "(")
      expectTag (str "type")
      let type ← getString narMaxTag
      if type = str "regular" then
        parseRegular mode path
      else if type = str "directory" then
        parseDirectory (fun name => parse levels (path ++ [name])) path
      else if type = str "symlink" then
        parseSymlink path
      else
        throw (badArchive "unknown file type '%s'" [type])

/-- The version string; an undecodable one reads as empty. -/
def readVersion : Parser Bytes := fun src =>
  match (readString narVersionMagic1.length : Parser Bytes) src with
  | ⟨calls, .error err⟩ =>
      if err.cls = .serialisationError then ⟨calls, .ok ([], src)⟩ else ⟨calls, .error err⟩
  | r => r

def parseDump : Parser Unit := do
  let version ← readVersion
  throwIf (version ≠ narVersionMagic1) (badArchive "input doesn't look like a Nix archive" [])
  parse mode narMaxDepth []

end Parse

/-! ## The archive of a tree -/

namespace Tree

mutual

/-- The archive of a node, without the version string. -/
def encodeNode : Tree → Bytes
  | .regular executable contents =>
      encodeString (str "(") ++ encodeString (str "type") ++ encodeString (str "regular") ++
        ((if executable then encodeString (str "executable") ++ encodeString [] else []) ++
          (encodeString (str "contents") ++ encodeString contents ++ encodeString (str ")")))
  | .symlink target =>
      encodeString (str "(") ++ encodeString (str "type") ++ encodeString (str "symlink") ++
        (encodeString (str "target") ++ encodeString target ++ encodeString (str ")"))
  | .directory entries =>
      encodeString (str "(") ++ encodeString (str "type") ++ encodeString (str "directory") ++
        encodeEntries entries

/-- The archive of the entries of a directory, with its closing parenthesis. -/
def encodeEntries : List (Name × Tree) → Bytes
  | [] => encodeString (str ")")
  | (name, child) :: rest =>
      encodeString (str "entry") ++ encodeString (str "(") ++ encodeString (str "name") ++
        encodeString name ++ encodeString (str "node") ++ child.encodeNode ++
        encodeString (str ")") ++ encodeEntries rest

end

/-- The canonical archive of a tree. -/
def nar (t : Tree) : Bytes := encodeString narVersionMagic1 ++ t.encodeNode

mutual

/-- The calls by which a parser builds the tree below `path`. -/
def calls (cut : Bytes → List Bytes) : Tree → CanonPath → List SinkCall
  | .regular executable contents, path =>
      [.createRegularFile path] ++ (if executable then [.isExecutable path] else []) ++
        [.preallocateContents path contents.length] ++
        (cut contents).map (SinkCall.contents path) ++ [.closeRegularFile path]
  | .symlink target, path => [.createSymlink path target]
  | .directory entries, path =>
      [.createDirectory path] ++ callsEntries cut entries path ++ [.closeDirectory path]

/-- The calls that build the entries of the directory at `path`. -/
def callsEntries (cut : Bytes → List Bytes) : List (Name × Tree) → CanonPath → List SinkCall
  | [], _ => []
  | (name, child) :: rest, path =>
      calls cut child (path ++ [name]) ++ callsEntries cut rest path

end

end Tree

end Util
end Archinix
