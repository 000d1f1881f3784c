import Archinix.Host.Outcomes
import Archinix.Util.ArchiveRoundTrip

/-!
# What an archive keeps of the file system

`Label` is what an archive keeps of a node, and `FileSystem.Holds` says that the
nodes at and below a path are those of a tree.
-/

namespace Archinix
namespace Host

open Foundation Util

/-! ## Labels -/

/-- What an archive keeps of a node. -/
inductive Label where
  | regular (executable : Bool) (contents : Bytes)
  | directory
  | symlink (target : Bytes)
  /-- The dumper refuses these. -/
  | device (type : SpecialType)
  deriving DecidableEq

/-- The label of a file, symlink or device; sockets and fifos have none. -/
def Inode.label (inode : Inode) : Option Label :=
  match inode.kind with
  | .regular contents => some (.regular (Mode.isExecutable inode.mode) contents)
  | .symlink target => some (.symlink target)
  | .special .socket => none
  | .special .fifo => none
  | .special type => some (.device type)

def FileSystem.label (fs : FileSystem) (p : Path) : Option Label :=
  match fs.node p with
  | some (.directory _ _) => some .directory
  | some (.leaf i) => (fs.inode i).label
  | none => none

/-- The label of the root of a tree. -/
def treeLabel : Tree → Label
  | .regular executable contents => .regular executable contents
  | .directory _ => .directory
  | .symlink target => .symlink target

/-- All directories of the tree list their entries in ascending order. -/
inductive InOrder : Tree → Prop
  | regular (executable : Bool) (contents : Bytes) : InOrder (.regular executable contents)
  | symlink (target : Bytes) : InOrder (.symlink target)
  | directory {entries : List (Name × Tree)} (hsorted : (entries.map (·.1)).Pairwise (· < ·))
      (hchildren : ∀ e ∈ entries, InOrder e.2) : InOrder (.directory entries)

/-- The nodes at and below `p`, without sockets and fifos, are those of the tree. -/
def FileSystem.Holds (fs : FileSystem) (p : Path) (t : Tree) : Prop :=
  ∀ q, fs.label (p ++ q) = (t.get? q).map treeLabel

/-- Two trees of files agree in what an archive keeps of them. -/
def Agree (fs₁ : FileSystem) (p₁ : Path) (fs₂ : FileSystem) (p₂ : Path) : Prop :=
  ∀ q, fs₁.label (p₁ ++ q) = fs₂.label (p₂ ++ q)

namespace FileSystem

variable {fs : FileSystem} {p q : Path}

theorem isDir_of_label (h : fs.label p = some .directory) : fs.IsDir p := by
  unfold label at h
  split at h
  · rename_i mode mtime hnode
    exact ⟨mode, mtime, hnode⟩
  · unfold Inode.label at h
    split at h <;> cases h
  · cases h

theorem label_of_isDir (h : fs.IsDir p) : fs.label p = some .directory := by
  obtain ⟨mode, mtime, hnode⟩ := h
  simp [label, hnode]

theorem node_of_label (h : fs.label p ≠ none) : fs.node p ≠ none := by
  intro hnone
  exact h (by simp [label, hnone])

theorem leaf_of_label {l : Label} (h : fs.label p = some l) (hl : l ≠ .directory) :
    ∃ i, fs.node p = some (.leaf i) ∧ (fs.inode i).label = some l := by
  unfold label at h
  split at h
  · exact absurd (Option.some.inj h).symm hl
  · rename_i i hnode
    exact ⟨i, hnode, h⟩
  · cases h

/-- Only directories have labelled nodes below them. -/
theorem label_below (h : fs.label (p ++ q) ≠ none) (hq : q ≠ []) : fs.IsDir p :=
  isDir_of_below hq (node_of_label h)

end FileSystem

theorem Inode.kind_of_label_regular {inode : Inode} {executable : Bool} {contents : Bytes}
    (h : inode.label = some (.regular executable contents)) :
    inode.kind = .regular contents ∧ Mode.isExecutable inode.mode = executable := by
  unfold Inode.label at h
  split at h <;> simp_all

theorem Inode.kind_of_label_symlink {inode : Inode} {target : Bytes}
    (h : inode.label = some (.symlink target)) : inode.kind = .symlink target := by
  unfold Inode.label at h
  split at h <;> simp_all

theorem Inode.kind_of_label_device {inode : Inode} {type : SpecialType}
    (h : inode.label = some (.device type)) :
    inode.kind = .special type ∧ type ≠ .socket ∧ type ≠ .fifo := by
  unfold Inode.label at h
  split at h <;> simp_all

variable {fs : FileSystem}

theorem InOrder.of_representable {t : Tree} (h : t.Representable) : InOrder t := by
  induction h with
  | regular executable hsize => exact .regular executable _
  | symlink htarget => exact .symlink _
  | directory hnames hsorted hchildren ih => exact .directory hsorted ih

namespace FileSystem.Holds

variable {p : Path} {t : Tree} {entries : List (Name × Tree)}

theorem root (h : fs.Holds p t) : fs.label p = some (treeLabel t) := by
  have hroot := h []
  rwa [List.append_nil, show t.get? [] = some t by cases t <;> rfl] at hroot

theorem child (h : fs.Holds p (.directory entries))
    (hsorted : (entries.map (·.1)).Pairwise (· < ·)) {e : Name × Tree} (he : e ∈ entries) :
    fs.Holds (p ++ [e.1]) e.2 := by
  intro q
  rw [← List.append_cons, h (e.1 :: q)]
  simp [Tree.get?, Tree.find?_of_mem hsorted he]

theorem mem_names (h : fs.Holds p (.directory entries)) {name : Name} :
    name ∈ entries.map (·.1) ↔ fs.label (p ++ [name]) ≠ none := by
  rw [h [name], Tree.get?]
  cases hfind : entries.find? (·.1 = name) with
  | none =>
      rw [List.find?_eq_none] at hfind
      simp only [Option.map_none, ne_eq, not_true_eq_false, iff_false, List.mem_map, not_exists,
        not_and]
      intro e he heq
      exact hfind e he (by simpa using heq)
  | some e =>
      have hmem := List.mem_of_find?_eq_some hfind
      have hname := List.find?_some hfind
      have hget : e.2.get? [] = some e.2 := by cases e.2 <;> rfl
      simp only [hget, Option.map_some, ne_eq, reduceCtorEq, not_false_eq_true, iff_true]
      exact List.mem_map.mpr ⟨e, hmem, by simpa using hname⟩

/-- A file or a symlink holds the tree of its label. -/
theorem leaf (h : fs.label p = some (treeLabel t)) (hleaf : treeLabel t ≠ .directory) :
    fs.Holds p t := by
  intro q
  cases q with
  | nil => cases t <;> simpa [Tree.get?] using h
  | cons name rest =>
      have hnone : fs.label (p ++ name :: rest) = none := by
        by_contra hsome
        rw [label_of_isDir (label_below hsome (by simp))] at h
        exact hleaf (Option.some.inj h).symm
      rw [hnone]
      cases t with
      | directory entries => exact absurd rfl hleaf
      | regular | symlink => rfl

/-- A directory holds the tree of what its names hold. -/
theorem directory (hdir : fs.IsDir p)
    (hnames : ∀ name, name ∈ entries.map (·.1) ↔ fs.label (p ++ [name]) ≠ none)
    (hchildren : ∀ e ∈ entries, fs.Holds (p ++ [e.1]) e.2) : fs.Holds p (.directory entries) := by
  intro q
  cases q with
  | nil =>
      rw [List.append_nil, label_of_isDir hdir]
      rfl
  | cons name rest =>
      rw [Tree.get?]
      cases hfind : entries.find? (·.1 = name) with
      | none =>
          have hnone : fs.label (p ++ [name]) = none := by
            by_contra hsome
            obtain ⟨e, he, heq⟩ := List.mem_map.mp ((hnames name).mpr hsome)
            exact List.find?_eq_none.mp hfind e he (by simpa using heq)
          show fs.label (p ++ name :: rest) = none
          by_contra hsome
          by_cases hrest : rest = []
          · exact hsome (by rw [hrest]; exact hnone)
          · rw [List.append_cons] at hsome
            rw [label_of_isDir (label_below hsome hrest)] at hnone
            cases hnone
      | some e =>
          have hmem := List.mem_of_find?_eq_some hfind
          obtain rfl : e.1 = name := by simpa using List.find?_some hfind
          rw [List.append_cons]
          exact hchildren e hmem rest

/-- A directory whose labelled names all hold trees holds one itself. -/
theorem of_children {names : List Name} {levels : Nat} (hdir : fs.IsDir p)
    (hsorted : names.Pairwise (· < ·))
    (hnames : ∀ name, name ∈ names ↔ fs.label (p ++ [name]) ≠ none)
    (hchild : ∀ name ∈ names, ∃ t, fs.Holds (p ++ [name]) t ∧ InOrder t ∧ t.height ≤ levels) :
    ∃ t, fs.Holds p t ∧ InOrder t ∧ t.height ≤ levels + 1 := by
  have hchoice : ∀ name, ∃ t, name ∈ names →
      fs.Holds (p ++ [name]) t ∧ InOrder t ∧ t.height ≤ levels := by
    intro name
    by_cases hname : name ∈ names
    · obtain ⟨t, ht⟩ := hchild name hname
      exact ⟨t, fun _ => ht⟩
    · exact ⟨.symlink [], fun h => absurd h hname⟩
  choose child hchild using hchoice
  have hkeys : (names.map fun name => (name, child name)).map (·.1) = names := by
    simp [List.map_map, Function.comp_def]
  have hentry : ∀ e ∈ names.map fun name => (name, child name),
      fs.Holds (p ++ [e.1]) e.2 ∧ InOrder e.2 ∧ e.2.height ≤ levels := by
    intro e he
    obtain ⟨name, hname, rfl⟩ := List.mem_map.mp he
    exact hchild name hname
  refine ⟨.directory (names.map fun name => (name, child name)), .directory hdir ?_ ?_,
    .directory ?_ ?_, ?_⟩
  · intro name
    rw [hkeys]
    exact hnames name
  · exact fun e he => (hentry e he).1
  · rw [hkeys]
    exact hsorted
  · exact fun e he => (hentry e he).2.1
  · rw [Util.Tree.height]
    exact Nat.succ_le_succ (Util.Tree.heightEntries_le fun e he => (hentry e he).2.2)

end FileSystem.Holds

/-! ## What every kernel sees to -/

/-- Names are those of `NAME_MAX` bytes that are not `.` or `..`, targets fit
`PATH_MAX`, and sizes fit `off_t`. -/
structure FileSystem.WithinLimits (fs : FileSystem) : Prop where
  name : ∀ p name, fs.node (p ++ [name]) ≠ none → ValidName name
  target : ∀ p i target, fs.node p = some (.leaf i) → (fs.inode i).kind = .symlink target →
    ValidTarget target
  size : ∀ p i contents, fs.node p = some (.leaf i) → (fs.inode i).kind = .regular contents →
    contents.length < 2 ^ 63

/-- What such a file system holds, an archive can carry. -/
theorem FileSystem.Holds.representable {p : Path} {t : Tree} (h : fs.Holds p t) (ht : InOrder t)
    (hlimits : fs.WithinLimits) : t.Representable := by
  induction t using Tree.inductionOn generalizing p with
  | regular executable contents =>
      obtain ⟨i, hnode, hinode⟩ := leaf_of_label h.root (by simp [treeLabel])
      obtain ⟨hkind, -⟩ := Inode.kind_of_label_regular hinode
      have hsize := hlimits.size p i contents hnode hkind
      exact .regular executable (by omega)
  | symlink target =>
      obtain ⟨i, hnode, hinode⟩ := leaf_of_label h.root (by simp [treeLabel])
      exact .symlink (hlimits.target p i target hnode (Inode.kind_of_label_symlink hinode))
  | directory entries ih =>
      cases ht with
      | directory hsorted hchildren =>
          refine .directory (fun e he => ?_) hsorted fun e he => ?_
          · have hlabel := h.mem_names.mp (List.mem_map_of_mem he)
            exact hlimits.name p e.1 (node_of_label hlabel)
          · exact ih e he (h.child hsorted he) (hchildren e he)

/-- Paths that hold the same tree agree. -/
theorem FileSystem.Holds.agree {fs₁ fs₂ : FileSystem} {p₁ p₂ : Path} {t : Tree}
    (h₁ : fs₁.Holds p₁ t) (h₂ : fs₂.Holds p₂ t) : Agree fs₁ p₁ fs₂ p₂ :=
  fun q => (h₁ q).trans (h₂ q).symm

/-- What is not changed keeps its label. -/
theorem Keeps.label {changed touched : Set Path} {fs fs' : FileSystem} {q : Path}
    (h : Keeps changed touched fs fs') (hchanged : q ∉ changed) (htouched : q ∉ touched) :
    fs'.label q = fs.label q := by
  unfold FileSystem.label
  rw [h.node q hchanged htouched]
  rcases hnode : fs.node q with - | ⟨mode, mtime⟩ | i
  · rfl
  · rfl
  · dsimp only
    rw [h.inode i (fs.ino_lt q i hnode)]

end Host
end Archinix
