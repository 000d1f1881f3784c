import Archinix.Host.Changes
import Archinix.Store.Operations
import Archinix.Util.SourceToSink

/-!
# Restoring an archive

`RestoreSink` of `fs-sink.cc`, driven by the calls of `parseDump`.  A descriptor of a
directory is the directory's path here; the sinks that `createDirectory` makes for the
directories below share all but the path they are rooted at, so one state stands for
them.  Initiating an early write-back (`startFsync`) is left out.
-/

namespace Archinix
namespace Store

open Foundation Util Host SourceToSink

/-- `canonicalTimes`. -/
def canonicalTime : Time := 1

/-- `writeFull(fd, data)`. -/
def writeFull (fd : Nat) (data : Bytes) : Action Unit :=
  if data = [] then pure ()
  else do
    checkInterrupt
    sys (.write fd data) (sysError "write of %1% bytes" [natStr data.length])

/-- `RestoreRegularFile`: the descriptor, and what its `FdSink` has in the buffer. -/
structure RestoreRegularFile where
  fd : Nat
  buffer : Bytes
  madeExecutable : Bool

structure RestoreSink where
  dstPath : Path
  canonical : Bool
  /-- `dirFd` is open: the root is a directory and has been made. -/
  dirFd : Bool
  /-- The file whose callback is running. -/
  file : Option RestoreRegularFile
  deferCanonicalDirs : Option (List CanonPath)

namespace RestoreSink

variable (s : RestoreSink)

def append (path : CanonPath) : Path := s.dstPath ++ path

def showPath (path : CanonPath) : Bytes := CanonPath.abs (s.append path)

/-- `umaskPreservesCanonicalModes`. -/
def umaskPreservesCanonicalModes : Action Bool := do
  let mask ← umask
  pure (mask &&& 0o555 = 0)

/-- `openFileEnsureBeneathNoSymlinks`, and the exception for a failure. -/
def openError (fmt : String) (path : CanonPath) (e : Errno) : Exception :=
  if e = .eloop then .error ⟨.symlinkNotAllowed, "relative path '%s' points to a symlink, which is not allowed",
    [(CanonPath.abs path).drop 1]⟩
  else sysError fmt [s.showPath path] e

/-- `getParentFdAndName`. -/
def getParentFdAndName (path : CanonPath) : Action Unit :=
  -- the sink for the directory has its descriptor open
  if s.dirFd then pure ()
  else if path ≠ [] then
    throw (.error ⟨.error, "cannot create non-root path %s without a root directory", [s.showPath path]⟩)
  else
    sys (.openDirectory (parentDir (s.append path)))
      (sysError "opening parent directory of %s" [s.showPath path])

def createDirectory (path : CanonPath) : Action RestoreSink :=
  if s.dirFd ∧ path = [] then throw (.error ⟨.error, "path %s already exists", [s.showPath path]⟩)
  else do
    s.getParentFdAndName path
    sys (.mkdir (s.append path) 0o777) (sysError "creating directory %s" [s.showPath path])
    sys (.openDirectory (s.append path)) (s.openError "opening directory %s" path)
    pure { s with dirFd := true }

/-- What `createDirectory` does after the callback: `finishCanonical` of the sink for the
directory.  The root is left alone. -/
def closeDirectory (path : CanonPath) : Action RestoreSink :=
  if path = [] ∨ !s.canonical then pure s
  else
    match s.deferCanonicalDirs with
    | some dirs => pure { s with deferCanonicalDirs := some (dirs ++ [path]) }
    | none => do
        sys (.chmod (s.append path) 0o755) (sysError "fchmod" [])
        sys (.utimens (s.append path) canonicalTime) (sysError "setting mtime of %1%" [s.showPath path])
        pure s

def createRegularFile (path : CanonPath) : Action RestoreSink := do
  s.getParentFdAndName path
  let fd ← sys (.create (s.append path) (if s.canonical then 0o444 else 0o666))
    (s.openError "creating file %1%" path)
  pure { s with file := some ⟨fd, [], false⟩ }

/-- `RestoreRegularFile::isExecutable`. -/
def isExecutable (crf : RestoreRegularFile) : Action RestoreSink :=
  if s.canonical then do
    sys (.fchmod crf.fd 0o555) (sysError "fchmod" [])
    pure { s with file := some { crf with madeExecutable := true } }
  else do
    let st ← sys (.fstat crf.fd) (sysError "getting status of file descriptor" [])
    sys (.fchmod crf.fd (st.mode ||| 0o111)) (sysError "fchmod" [])
    pure s

/-- `RestoreRegularFile::operator()`. -/
def contents (crf : RestoreRegularFile) (data : Bytes) : Action RestoreSink := do
  let (written, buffer) := bufferedWrite bufSize crf.buffer data
  written.forM (writeFull crf.fd)
  pure { s with file := some { crf with buffer := buffer } }

/-- What `createRegularFile` does after the callback. -/
def closeRegularFile (crf : RestoreRegularFile) (path : CanonPath) : Action RestoreSink := do
  writeFull crf.fd crf.buffer
  if s.canonical then
    let preserved ← umaskPreservesCanonicalModes
    if !preserved ∧ !crf.madeExecutable then sys (.fchmod crf.fd 0o444) (sysError "fchmod" [])
    sys (.futimens crf.fd canonicalTime) (sysError "setting mtime of %1%" [s.showPath path])
  pure { s with file := none }

def createSymlink (path : CanonPath) (target : Bytes) : Action RestoreSink := do
  s.getParentFdAndName path
  sys (.symlink target (s.append path))
    (sysError "creating symlink from %1% -> '%2%'" [s.showPath path, target])
  if s.canonical then
    sys (.utimens (s.append path) canonicalTime) (sysError "setting mtime of %1%" [s.showPath path])
  pure s

/-- A call on the sink; calls on a file are made while its callback runs. -/
def call (c : SinkCall) : Action RestoreSink :=
  match c, s.file with
  | .createDirectory path, _ => s.createDirectory path
  | .closeDirectory path, _ => s.closeDirectory path
  | .createRegularFile path, _ => s.createRegularFile path
  | .createSymlink path target, _ => s.createSymlink path target
  | .isExecutable _, some crf => s.isExecutable crf
  -- `preallocateContents` is off
  | .preallocateContents _ _, _ => pure s
  | .contents _ data, some crf => s.contents crf data
  | .closeRegularFile path, some crf => s.closeRegularFile crf path
  | .isExecutable _, none | .contents _ _, none | .closeRegularFile _, none => pure s

/-- `~RestoreRegularFile`: the file of an interrupted callback is flushed.  When the sink
itself has thrown, its buffer is empty. -/
def destroy : Action Unit :=
  match s.file with
  | some crf => do
      let _ ← (writeFull crf.fd crf.buffer).attempt
      pure ()
  | none => pure ()

/-- The parse goes from call to call until it ends, throws, or is interrupted while it
reads. -/
def run (result : Except Error Bytes) : RestoreSink → List SinkCall → Action (RestoreSink × Bytes)
  | s, [] => do
      match ← checkInterrupt.attempt, result with
      | .ok (), .ok rest => pure (s, rest)
      | .ok (), .error e => do
          s.destroy
          throw (.error e)
      | .error e, _ => do
          s.destroy
          throw e
  | s, c :: calls => do
      match ← checkInterrupt.attempt with
      | .ok () => do
          let s ← s.call c
          run result s calls
      | .error e => do
          s.destroy
          throw e

end RestoreSink

/-- `parseDump(sink, source)` on the bytes of the source; what is left of them. -/
def parseDumpInto (reads : ReadSizes) (sink : RestoreSink) (source : Bytes) :
    Action (RestoreSink × Bytes) :=
  let parsed := parseDump ⟨false, reads⟩ source
  sink.run (parsed.result.map (·.2)) parsed.emitted

/-- `restorePath`: the root directory is left as it is. -/
def restorePath (reads : ReadSizes) (path : Path) (source : Bytes) (canonical : Bool) :
    Action Bytes := do
  let (_, rest) ← parseDumpInto reads ⟨path, canonical, false, none, none⟩ source
  pure rest

end Store
end Archinix
