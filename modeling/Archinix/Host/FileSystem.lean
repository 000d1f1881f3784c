import Archinix.Util.Archive

/-!
# The file system

What the operating system offers the library: a tree of directories whose
leaves are hard links to inodes.  A directory is identified by its path, a file
or symlink by its inode.  The system calls are total functions on the state;
`errno` values are returned where a call refuses, and permission checks are
left to the failures a caller may meet at any call.
-/

namespace Archinix
namespace Host

open Util

/-- An absolute path, as the list of its components. -/
abbrev Path := List Name

/-- The directory a path lies in. -/
def parentDir (p : Path) : Path := p.dropLast

@[simp] theorem parentDir_append (p : Path) (name : Name) : parentDir (p ++ [name]) = p :=
  List.dropLast_concat

/-- Permission bits. -/
abbrev Mode := BitVec 12

/-- `mode & S_IXUSR`. -/
def Mode.isExecutable (mode : Mode) : Bool := mode &&& 0o100 ≠ 0

/-- Seconds since the epoch. -/
abbrev Time := Nat

/-- The errors callers tell apart. -/
inductive Errno where
  | enoent
  | eexist
  | enotdir
  | eisdir
  | enotempty
  | eperm
  | eacces
  | einval
  | eopnotsupp
  | eloop
  | exdev
  | emlink
  | enospc
  | eio
  | enosys
  | enametoolong
  deriving DecidableEq

/-- The nodes that are neither files, directories nor symlinks. -/
inductive SpecialType where
  | char
  | block
  | socket
  | fifo
  deriving DecidableEq

inductive InodeKind where
  | regular (contents : Bytes)
  | symlink (target : Bytes)
  | special (type : SpecialType)
  deriving DecidableEq

structure Inode where
  kind : InodeKind
  mode : Mode
  mtime : Time
  deriving DecidableEq

inductive Node where
  | directory (mode : Mode) (mtime : Time)
  | leaf (ino : Nat)
  deriving DecidableEq

/-- A file system: finitely many nodes, each in a directory, and the inodes its
leaves link to. -/
structure FileSystem where
  node : Path → Option Node
  dom : List Path
  inode : Nat → Inode
  nextIno : Nat
  mem_dom : ∀ p, node p ≠ none → p ∈ dom
  parent_dir : ∀ p, p ≠ [] → node p ≠ none →
    ∃ mode mtime, node (parentDir p) = some (.directory mode mtime)
  ino_lt : ∀ p i, node p = some (.leaf i) → i < nextIno

namespace FileSystem

variable (fs : FileSystem)

/-- The path leads to a directory. -/
def IsDir (p : Path) : Prop := ∃ mode mtime, fs.node p = some (.directory mode mtime)

instance (p : Path) : Decidable (fs.IsDir p) :=
  match h : fs.node p with
  | some (.directory mode mtime) => isTrue ⟨mode, mtime, h⟩
  | some (.leaf i) => isFalse fun ⟨mode, mtime, hdir⟩ => by rw [h] at hdir; cases hdir
  | none => isFalse fun ⟨mode, mtime, hdir⟩ => by rw [h] at hdir; cases hdir

/-- The names in a directory. -/
def names (p : Path) : List Name :=
  (fs.dom.filterMap fun q =>
    if q ≠ [] ∧ parentDir q = p ∧ fs.node q ≠ none then q.getLast? else none).dedup

/-- The number of links to an inode. -/
def nlink (i : Nat) : Nat := (fs.dom.toFinset.filter fun p => fs.node p = some (.leaf i)).card

/-- The inode a path leads to. -/
def inodeAt (p : Path) : Option Nat :=
  match fs.node p with
  | some (.leaf i) => some i
  | _ => none

/-! ## Elementary changes -/

/-- Change the metadata of the directory at `p`, if there is one. -/
def modifyDirectory (p : Path) (f : Mode → Time → Mode × Time) : FileSystem where
  node q :=
    if q = p then
      (fs.node p).map fun
        | .directory mode mtime => .directory (f mode mtime).1 (f mode mtime).2
        | .leaf i => .leaf i
    else fs.node q
  dom := fs.dom
  inode := fs.inode
  nextIno := fs.nextIno
  mem_dom q hq := fs.mem_dom q (by grind)
  parent_dir q hne hq := by
    obtain ⟨mode, mtime, hdir⟩ := fs.parent_dir q hne (by grind)
    by_cases hp : parentDir q = p
    · exact ⟨_, _, by rw [if_pos hp, ← hp, hdir]; rfl⟩
    · exact ⟨mode, mtime, by rw [if_neg hp, hdir]⟩
  ino_lt q i hq := by
    refine fs.ino_lt q i ?_
    by_cases hp : q = p
    · subst hp
      rw [if_pos rfl] at hq
      rcases hnode : fs.node q with - | ⟨mode, mtime⟩ | j <;> simp_all
    · rwa [if_neg hp] at hq

/-- Change an inode. -/
def modifyInode (i : Nat) (f : Inode → Inode) : FileSystem :=
  { fs with inode := Function.update fs.inode i (f (fs.inode i)) }

/-- A new inode, not linked anywhere. -/
def newInode (inode : Inode) : FileSystem :=
  { fs with
    inode := Function.update fs.inode fs.nextIno inode
    nextIno := fs.nextIno + 1
    ino_lt := fun p i h => (fs.ino_lt p i h).trans (Nat.lt_succ_self _) }

/-- A new node at a free name of a directory. -/
def insert (p : Path) (n : Node) (hparent : fs.IsDir (parentDir p)) (hfree : fs.node p = none)
    (hino : ∀ i, n = .leaf i → i < fs.nextIno) : FileSystem where
  node q := if q = p then some n else fs.node q
  dom := p :: fs.dom
  inode := fs.inode
  nextIno := fs.nextIno
  mem_dom q hq := by
    by_cases hp : q = p
    · simp [hp]
    · exact List.mem_cons_of_mem _ (fs.mem_dom q (by rwa [if_neg hp] at hq))
  parent_dir q hne hq := by
    obtain ⟨mode, mtime, hdir⟩ : fs.IsDir (parentDir q) := by
      by_cases hp : q = p
      · rw [hp]; exact hparent
      · exact fs.parent_dir q hne (by rwa [if_neg hp] at hq)
    exact ⟨mode, mtime, by rw [if_neg (by rintro rfl; simp [hfree] at hdir), hdir]⟩
  ino_lt q i hq := by
    by_cases hp : q = p
    · rw [if_pos hp, Option.some.injEq] at hq
      exact hino i hq
    · exact fs.ino_lt q i (by rwa [if_neg hp] at hq)

/-- The node at a path without descendants goes. -/
def erase (p : Path) (hempty : ∀ q, q ≠ [] → parentDir q = p → fs.node q = none) : FileSystem where
  node q := if q = p then none else fs.node q
  dom := fs.dom
  inode := fs.inode
  nextIno := fs.nextIno
  mem_dom q hq := fs.mem_dom q (by grind)
  parent_dir q hne hq := by
    have hq' : fs.node q ≠ none := by grind
    obtain ⟨mode, mtime, hdir⟩ := fs.parent_dir q hne hq'
    exact ⟨mode, mtime, by rw [if_neg fun hp => hq' (hempty q hne hp), hdir]⟩
  ino_lt q i hq := fs.ino_lt q i (by grind)

/-- The node at `src` moves to `dst`, with all below it, in place of whatever is
there. -/
def move (src dst : Path) (hparent : fs.IsDir (parentDir dst))
    (hdst : dst ≠ []) (hinside : ¬ src <+: dst) : FileSystem where
  node q :=
    if dst <+: q then fs.node (src ++ q.drop dst.length)
    else if src <+: q then none
    else fs.node q
  dom := fs.dom ++ fs.dom.map fun q => dst ++ q.drop src.length
  inode := fs.inode
  nextIno := fs.nextIno
  mem_dom q hq := by
    by_cases h₁ : dst <+: q
    · rw [if_pos h₁] at hq
      obtain ⟨r, rfl⟩ := h₁
      rw [List.drop_left] at hq
      exact List.mem_append_right _
        (List.mem_map.mpr ⟨src ++ r, fs.mem_dom _ hq, by rw [List.drop_left]⟩)
    · rw [if_neg h₁] at hq
      exact List.mem_append_left _ (fs.mem_dom q (by grind))
  parent_dir q hne hq := by
    by_cases h₁ : dst <+: q
    · obtain ⟨r, rfl⟩ := h₁
      rw [if_pos (List.prefix_append _ _), List.drop_left] at hq
      by_cases hr : r = []
      · subst hr
        obtain ⟨mode, mtime, hdir⟩ := hparent
        refine ⟨mode, mtime, ?_⟩
        rw [List.append_nil, if_neg, if_neg, hdir]
        · exact fun h => hinside (h.trans (List.dropLast_prefix dst))
        · intro h
          have hlen := h.length_le
          have hpos := List.length_pos_of_ne_nil hdst
          simp only [parentDir, List.length_dropLast] at hlen
          omega
      · have hsplit : parentDir (dst ++ r) = dst ++ r.dropLast :=
          List.dropLast_append_of_ne_nil hr
        have hsource : parentDir (src ++ r) = src ++ r.dropLast :=
          List.dropLast_append_of_ne_nil hr
        obtain ⟨mode, mtime, hdir⟩ := fs.parent_dir (src ++ r) (by simp [hr]) hq
        rw [hsource] at hdir
        refine ⟨mode, mtime, ?_⟩
        rw [hsplit, if_pos (List.prefix_append _ _), List.drop_left, hdir]
    · rw [if_neg h₁] at hq
      by_cases h₂ : src <+: q
      · rw [if_pos h₂] at hq
        exact absurd rfl hq
      · rw [if_neg h₂] at hq
        obtain ⟨mode, mtime, hdir⟩ := fs.parent_dir q hne hq
        refine ⟨mode, mtime, ?_⟩
        rw [if_neg fun h => h₁ (h.trans (List.dropLast_prefix q)),
          if_neg fun h => h₂ (h.trans (List.dropLast_prefix q)), hdir]
  ino_lt q i hq := by
    by_cases h₁ : dst <+: q
    · rw [if_pos h₁] at hq
      exact fs.ino_lt _ i hq
    · rw [if_neg h₁] at hq
      exact fs.ino_lt q i (by grind)

variable {fs}

theorem mem_names {p : Path} {name : Name} :
    name ∈ fs.names p ↔ fs.node (p ++ [name]) ≠ none := by
  simp only [names, List.mem_dedup, List.mem_filterMap]
  constructor
  · rintro ⟨q, -, hq⟩
    split at hq
    · rename_i hcond
      obtain ⟨hne, rfl, hnode⟩ := hcond
      rwa [parentDir, List.dropLast_append_getLast? name hq]
    · cases hq
  · intro hnode
    refine ⟨p ++ [name], fs.mem_dom _ hnode, ?_⟩
    simp [hnode]

/-- A file has nothing below it. -/
theorem node_below_leaf {p : Path} {i : Nat} (h : fs.node p = some (.leaf i)) {q : Path}
    (hne : q ≠ []) (hq : parentDir q = p) : fs.node q = none := by
  by_contra hnode
  obtain ⟨mode, mtime, hdir⟩ := fs.parent_dir q hne hnode
  rw [hq, h] at hdir
  cases hdir

/-- Nor has a directory without names. -/
theorem node_below_empty {p : Path} (h : fs.names p = []) {q : Path} (hne : q ≠ [])
    (hq : parentDir q = p) : fs.node q = none := by
  by_contra hnode
  have hmem : q.getLast hne ∈ fs.names p := by
    rw [mem_names, ← hq, parentDir, List.dropLast_append_getLast hne]
    exact hnode
  rw [h] at hmem
  cases hmem

/-! ## Given file systems -/

/-- A list of nodes makes a file system: each lies in a directory of the list, and
leaves link to inodes below `nextIno`. -/
def WellFormed (nodes : List (Path × Node)) (nextIno : Nat) : Bool :=
  nodes.all fun (p, n) =>
    (p.isEmpty || match nodes.lookup (parentDir p) with
      | some (.directory _ _) => true
      | _ => false) &&
    match n with
      | .leaf i => decide (i < nextIno)
      | .directory _ _ => true

theorem mem_of_lookup {nodes : List (Path × Node)} {p : Path} {n : Node}
    (h : nodes.lookup p = some n) : (p, n) ∈ nodes := by
  induction nodes with
  | nil => cases h
  | cons e nodes ih =>
      rcases e with ⟨q, m⟩
      rw [List.lookup_cons] at h
      split at h
      · rename_i heq
        obtain rfl : p = q := by simpa using heq
        obtain rfl := Option.some.inj h
        exact List.mem_cons_self
      · exact List.mem_cons_of_mem _ (ih h)

/-- The file system with the given nodes. -/
def ofNodes (nodes : List (Path × Node)) (inode : Nat → Inode) (nextIno : Nat)
    (h : WellFormed nodes nextIno = true) : FileSystem where
  node p := nodes.lookup p
  dom := nodes.map (·.1)
  inode := inode
  nextIno := nextIno
  mem_dom p hp := by
    obtain ⟨n, hn⟩ := Option.ne_none_iff_exists'.mp hp
    exact List.mem_map.mpr ⟨_, mem_of_lookup hn, rfl⟩
  parent_dir p hne hp := by
    obtain ⟨n, hn⟩ := Option.ne_none_iff_exists'.mp hp
    have hcheck := List.all_eq_true.mp h _ (mem_of_lookup hn)
    simp only [Bool.and_eq_true, Bool.or_eq_true, List.isEmpty_iff] at hcheck
    have hparent := hcheck.1.resolve_left hne
    split at hparent
    · rename_i mode mtime hdir
      exact ⟨mode, mtime, hdir⟩
    · cases hparent
  ino_lt p i hp := by
    have hcheck := List.all_eq_true.mp h _ (mem_of_lookup hp)
    simp only [Bool.and_eq_true, decide_eq_true_eq] at hcheck
    exact hcheck.2

end FileSystem

end Host
end Archinix
