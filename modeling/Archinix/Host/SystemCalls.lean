import Archinix.Host.PathResolution

/-!
# System calls

The calls the library makes on the file system, what each answers and how it
changes the state.  Paths are taken as they are: but for `followDirectory` and
`fchmodat`, no call follows a symlink in the last component, and the library
never walks through one.
-/

namespace Archinix
namespace Host

open Util

/-- What `lstat` reports. -/
structure FileStat where
  type : FileType
  mode : Mode
  /-- Directories are not linked to inodes here; theirs reads as none. -/
  ino : Option Nat
  nlink : Nat
  size : Nat
  mtime : Time
  deriving DecidableEq

/-- A directory entry: its name, `d_type` and `d_ino`. -/
structure DirEntry where
  name : Name
  type : FileType
  ino : Option Nat
  deriving DecidableEq

/-- What reading a directory to its end gives: the entries read, and the error
that cut the reading short. -/
structure Listing where
  entries : List DirEntry
  error : Option Errno
  deriving DecidableEq

/-- A system call with its arguments. -/
inductive Call where
  | lstat (p : Path)
  /-- `open(O_DIRECTORY)`. -/
  | openDirectory (p : Path)
  /-- `open(O_DIRECTORY)` of a path nobody has resolved; the descriptor is the
  path of the directory it leads to. -/
  | followDirectory (p : Path)
  /-- `open(O_PATH | O_NOFOLLOW)`. -/
  | openPath (p : Path)
  /-- `opendir`, then `readdir` until it gives nothing more. -/
  | readdir (p : Path)
  | readlink (p : Path)
  /-- `open` and `read` to the end. -/
  | read (p : Path)
  | mkdir (p : Path) (mode : Mode)
  /-- `open(O_CREAT | O_RDWR)`; the descriptor is the inode. -/
  | openLock (p : Path) (mode : Mode)
  /-- `open(O_CREAT | O_EXCL | O_WRONLY)`; the descriptor is the inode. -/
  | create (p : Path) (mode : Mode)
  | write (fd : Nat) (data : Bytes)
  | fstat (fd : Nat)
  | fchmod (fd : Nat) (mode : Mode)
  | futimens (fd : Nat) (mtime : Time)
  | chmod (p : Path) (mode : Mode)
  /-- `chmod` of the descriptor opened at `p`, through `/proc/self/fd`. -/
  | chmodProc (p : Path) (mode : Mode)
  /-- `fchmodat` without flags: it follows a symlink. -/
  | fchmodat (p : Path) (mode : Mode)
  | utimens (p : Path) (mtime : Time)
  | symlink (target : Bytes) (p : Path)
  | link (src dst : Path)
  | rename (src dst : Path)
  | unlink (p : Path)
  | rmdir (p : Path)
  deriving DecidableEq

namespace Call

/-- What a successful call returns. -/
@[reducible] def Val : Call → Type
  | lstat _ | fstat _ => FileStat
  | readdir _ => Listing
  | readlink _ | read _ => Bytes
  | openLock _ _ | create _ _ => Nat
  | followDirectory _ => Path
  | _ => Unit

/-- The call only looks. -/
def ReadOnly : Call → Prop
  | lstat _ | openDirectory _ | followDirectory _ | openPath _ | readdir _ | readlink _ | read _
  | fstat _ => True
  | _ => False

end Call

namespace FileSystem

variable (fs : FileSystem)

/-- The error for a path that leads nowhere. -/
def missing (p : Path) : Errno :=
  if p.inits.any fun q => (fs.inodeAt q).isSome then .enotdir else .enoent

end FileSystem

def SpecialType.type : SpecialType → FileType
  | .char => .tChar
  | .block => .tBlock
  | .socket => .tSocket
  | .fifo => .tFifo

def InodeKind.type : InodeKind → FileType
  | .regular _ => .tRegular
  | .symlink _ => .tSymlink
  | .special type => type.type

theorem InodeKind.type_ne_tDirectory (kind : InodeKind) : kind.type ≠ .tDirectory := by
  cases kind with
  | special type => cases type <;> simp [InodeKind.type, SpecialType.type]
  | _ => simp [InodeKind.type]

def InodeKind.size : InodeKind → Nat
  | .regular contents => contents.length
  | .symlink target => target.length
  | .special _ => 0

namespace FileSystem

variable (fs : FileSystem)

def statInode (i : Nat) : FileStat :=
  let inode := fs.inode i
  ⟨inode.kind.type, inode.mode, some i, fs.nlink i, inode.kind.size, inode.mtime⟩

def statNode : Node → FileStat
  | .directory mode mtime => ⟨.tDirectory, mode, none, 2, 0, mtime⟩
  | .leaf i => fs.statInode i

def lstat (p : Path) : Except Errno FileStat :=
  match fs.node p with
  | some n => .ok (fs.statNode n)
  | none => .error (fs.missing p)

/-- The directory entry of a name, from the node it leads to. -/
def entryOf (name : Name) (n : Node) : DirEntry :=
  match n with
  | .directory _ _ => ⟨name, .tDirectory, none⟩
  | .leaf i => ⟨name, (fs.inode i).kind.type, some i⟩

/-- The entries of a directory. -/
def entries (p : Path) : List DirEntry :=
  (fs.names p).filterMap fun name => (fs.node (p ++ [name])).map (fs.entryOf name)

def readdir (p : Path) : Except Errno Listing :=
  match fs.node p with
  | some (.directory _ _) => .ok ⟨fs.entries p, none⟩
  | some (.leaf _) => .error .enotdir
  | none => .error (fs.missing p)

def openDirectory (p : Path) : Except Errno Unit :=
  match fs.node p with
  | some (.directory _ _) => .ok ()
  | some (.leaf _) => .error .enotdir
  | none => .error (fs.missing p)

def openPath (p : Path) : Except Errno Unit :=
  match fs.node p with
  | some _ => .ok ()
  | none => .error (fs.missing p)

def readlink (p : Path) : Except Errno Bytes :=
  match fs.node p with
  | some (.directory _ _) => .error .einval
  | some (.leaf i) =>
      match (fs.inode i).kind with
      | .symlink target => .ok target
      | _ => .error .einval
  | none => .error (fs.missing p)

def read (p : Path) : Except Errno Bytes :=
  match fs.node p with
  | some (.directory _ _) => .error .eisdir
  | some (.leaf i) =>
      match (fs.inode i).kind with
      | .regular contents => .ok contents
      | .symlink _ => .error .eloop
      | .special _ => .error .einval
  | none => .error (fs.missing p)

section Changes

variable (now : Time)

/-- A change of names in a directory sets its modification time. -/
def touch (p : Path) : FileSystem := fs.modifyDirectory p fun mode _ => (mode, now)

/-- A new node, and the time of its directory. -/
def insertNode (p : Path) (n : Node) (hino : ∀ i, n = .leaf i → i < fs.nextIno) :
    Except Errno FileSystem :=
  if hparent : fs.IsDir (parentDir p) then
    if hfree : fs.node p = none then
      .ok ((fs.insert p n hparent hfree hino).touch now (parentDir p))
    else .error .eexist
  else .error (fs.missing p)

def mkdir (p : Path) (mode : Mode) : Except Errno FileSystem :=
  fs.insertNode now p (.directory mode now) fun _ h => nomatch h

/-- A new inode linked at `p`. -/
def insertInode (p : Path) (inode : Inode) : Except Errno FileSystem :=
  (fs.newInode inode).insertNode now p (.leaf fs.nextIno) fun i h => by
    cases h
    exact Nat.lt_succ_self _

def link (src dst : Path) : Except Errno FileSystem :=
  match hsrc : fs.node src with
  | some (.leaf i) => fs.insertNode now dst (.leaf i) fun j h => by
      cases h
      exact fs.ino_lt src _ hsrc
  | some (.directory _ _) => .error .eperm
  | none => .error (fs.missing src)

/-- The part of `rename` that moves the node, once nothing forbids it. -/
def replace (src dst : Path) : Except Errno FileSystem :=
  if h : fs.IsDir (parentDir dst) ∧ dst ≠ [] ∧ ¬ src <+: dst then
    .ok (((fs.move src dst h.1 h.2.1 h.2.2).touch now (parentDir src)).touch now (parentDir dst))
  else .error (if src <+: dst then .einval else fs.missing dst)

def rename (src dst : Path) : Except Errno FileSystem :=
  match fs.node src, fs.node dst with
  | none, _ => .error (fs.missing src)
  | some (.leaf i), some (.leaf j) =>
      -- two links to one inode: nothing happens
      if i = j then .ok fs else fs.replace now src dst
  | some (.leaf _), some (.directory _ _) => .error .eisdir
  | some (.directory _ _), some (.leaf _) => .error .enotdir
  | some (.directory _ _), some (.directory _ _) =>
      if src = dst then .ok fs
      else if fs.names dst = [] then fs.replace now src dst else .error .enotempty
  | some _, none => fs.replace now src dst

def unlink (p : Path) : Except Errno FileSystem :=
  match hp : fs.node p with
  | some (.leaf _) =>
      .ok ((fs.erase p fun _ hne hq => node_below_leaf hp hne hq).touch now (parentDir p))
  | some (.directory _ _) => .error .eisdir
  | none => .error (fs.missing p)

def rmdir (p : Path) : Except Errno FileSystem :=
  match fs.node p with
  | some (.directory _ _) =>
      if hempty : fs.names p = [] then
        .ok ((fs.erase p fun _ hne hq => node_below_empty hempty hne hq).touch now (parentDir p))
      else .error .enotempty
  | some (.leaf _) => .error .enotdir
  | none => .error (fs.missing p)

def write (fd : Nat) (data : Bytes) : FileSystem :=
  fs.modifyInode fd fun inode =>
    match inode.kind with
    | .regular contents => { inode with kind := .regular (contents ++ data), mtime := now }
    | _ => inode

/-- `fchmodat` with `AT_SYMLINK_NOFOLLOW`: symlinks have no mode to change. -/
def chmod (p : Path) (mode : Mode) : Except Errno FileSystem :=
  match fs.node p with
  | some (.directory _ _) => .ok (fs.modifyDirectory p fun _ mtime => (mode, mtime))
  | some (.leaf i) =>
      match (fs.inode i).kind with
      | .symlink _ => .error .eopnotsupp
      | _ => .ok (fs.modifyInode i fun inode => { inode with mode := mode })
  | none => .error (fs.missing p)

/-- `fchmodat` without flags. -/
def fchmodat (p : Path) (mode : Mode) : Except Errno FileSystem := do
  let target ← fs.followed p
  fs.chmod target mode

def utimens (p : Path) (mtime : Time) : Except Errno FileSystem :=
  match fs.node p with
  | some (.directory _ _) => .ok (fs.modifyDirectory p fun mode _ => (mode, mtime))
  | some (.leaf i) => .ok (fs.modifyInode i fun inode => { inode with mtime := mtime })
  | none => .error (fs.missing p)

/-- `open(O_CREAT | O_RDWR)`: the file there is, or a new one. -/
def openLock (p : Path) (mode : Mode) : Except Errno Nat × FileSystem :=
  match fs.node p with
  | some (.directory _ _) => (.error .eisdir, fs)
  | some (.leaf i) =>
      match (fs.inode i).kind with
      | .symlink _ => (.error .eloop, fs)
      | _ => (.ok i, fs)
  | none =>
      match fs.insertInode now p ⟨.regular [], mode, now⟩ with
      | .ok fs' => (.ok fs.nextIno, fs')
      | .error e => (.error e, fs)

/-- Keep the state when a change was refused. -/
def commit (r : Except Errno FileSystem) : Except Errno Unit × FileSystem :=
  match r with
  | .ok fs' => (.ok (), fs')
  | .error e => (.error e, fs)

/-- What a call answers at time `now` and the state it leaves. -/
def run (umask : Mode) : (c : Call) → Except Errno c.Val × FileSystem
  | .lstat p => (fs.lstat p, fs)
  | .openDirectory p => (fs.openDirectory p, fs)
  | .followDirectory p => (fs.resolveDirectory p, fs)
  | .openPath p => (fs.openPath p, fs)
  | .readdir p => (fs.readdir p, fs)
  | .readlink p => (fs.readlink p, fs)
  | .read p => (fs.read p, fs)
  | .mkdir p mode => fs.commit (fs.mkdir now p (mode &&& ~~~umask))
  | .openLock p mode => fs.openLock now p (mode &&& ~~~umask)
  | .create p mode =>
      match fs.insertInode now p ⟨.regular [], mode &&& ~~~umask, now⟩ with
      | .ok fs' => (.ok fs.nextIno, fs')
      | .error e => (.error e, fs)
  | .write fd data => (.ok (), fs.write now fd data)
  | .fstat fd => (.ok (fs.statInode fd), fs)
  | .fchmod fd mode => (.ok (), fs.modifyInode fd fun inode => { inode with mode := mode })
  | .futimens fd mtime => (.ok (), fs.modifyInode fd fun inode => { inode with mtime := mtime })
  | .chmod p mode => fs.commit (fs.chmod p mode)
  | .chmodProc p mode => fs.commit (fs.chmod p mode)
  | .fchmodat p mode => fs.commit (fs.fchmodat p mode)
  | .utimens p mtime => fs.commit (fs.utimens p mtime)
  | .symlink target p => fs.commit (fs.insertInode now p ⟨.symlink target, 0o777, now⟩)
  | .link src dst => fs.commit (fs.link now src dst)
  | .rename src dst => fs.commit (fs.rename now src dst)
  | .unlink p => fs.commit (fs.unlink now p)
  | .rmdir p => fs.commit (fs.rmdir now p)

end Changes

end FileSystem

/-- Where a call may fail on its own account, whatever the state. -/
abbrev Faults := Call → Errno → Prop

/-- The possible outcomes of a call: what it does at some time, with directory
entries in any order, or a fault, which leaves the state alone except that part
of a write may have gone through and part of a directory may have been read. -/
inductive Outcome (faults : Faults) (umask : Mode) (fs : FileSystem) :
    (c : Call) → Except Errno c.Val → FileSystem → Prop
  | run (now : Time) (c : Call) :
      Outcome faults umask fs c (fs.run now umask c).1 (fs.run now umask c).2
  | listed (p : Path) {listing : Listing} {entries : List DirEntry}
      (h : fs.readdir p = .ok listing) (hperm : entries.Perm listing.entries) :
      Outcome faults umask fs (.readdir p) (.ok ⟨entries, none⟩) fs
  | cutShort (p : Path) {listing : Listing} {entries : List DirEntry} {e : Errno}
      (h : fs.readdir p = .ok listing) (hfault : faults (.readdir p) e)
      (hsub : entries.Subperm listing.entries) :
      Outcome faults umask fs (.readdir p) (.ok ⟨entries, some e⟩) fs
  | fault (c : Call) (e : Errno) (h : faults c e) : Outcome faults umask fs c (.error e) fs
  | partialWrite (now : Time) (fd : Nat) {data written : Bytes} (e : Errno)
      (h : faults (.write fd data) e) (hwritten : written <+: data) :
      Outcome faults umask fs (.write fd data) (.error e) (fs.write now fd written)

end Host
end Archinix
