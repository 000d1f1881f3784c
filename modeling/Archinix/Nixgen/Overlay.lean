import Archinix.Host.Labels
import Archinix.Nixgen.RestoreMeta

/-!
# Overlays

A generation with an upper layer mounted over it, as `overlay` merges them with
`metacopy=on`: a whiteout in the upper layer hides what is below it, a directory
there merges with a lower one unless it is opaque, and a change of metadata copies a
file up without its data.

`Layer` carries what every sequence of changes to the merged view keeps: nodes lie in
directories of the layer and have valid names.
-/

namespace Archinix
namespace Nixgen

open Util Host

/-- A node as the merged view shows it. -/
inductive FileNode where
  | directory (metadata : Metadata)
  | regular (contents : Bytes) (metadata : Metadata)
  | symlink (target : Bytes) (metadata : Metadata)
  | special (type : SpecialType) (metadata : Metadata)
  deriving DecidableEq

namespace FileNode

def metadata : FileNode → Metadata
  | directory metadata => metadata
  | regular _ metadata => metadata
  | symlink _ metadata => metadata
  | special _ metadata => metadata

/-- What an archive keeps of it. -/
def label : FileNode → Option Label
  | directory _ => some .directory
  | regular contents metadata => some (.regular (Mode.isExecutable metadata.mode) contents)
  | symlink target _ => some (.symlink target)
  | special .socket _ => none
  | special .fifo _ => none
  | special type _ => some (.device type)

end FileNode

/-! ## The two layers -/

/-- A generation in the store: a directory that was archived. -/
structure Generation where
  entries : List (Name × Tree)
  representable : (Tree.directory entries).Representable
  height : (Tree.directory entries).height ≤ narMaxDepth

/-- The node the store makes of a file system object. -/
def storeNode : Tree → FileNode
  | .directory _ => .directory ⟨0o755, 0, 0⟩
  | .regular executable contents => .regular contents ⟨if executable then 0o555 else 0o444, 0, 0⟩
  | .symlink target => .symlink target ⟨0o777, 0, 0⟩

namespace Generation

variable (g : Generation)

def tree : Tree := .directory g.entries

def node (q : Path) : Option FileNode := (g.tree.get? q).map storeNode

end Generation

theorem label_storeNode (t : Tree) : (storeNode t).label = some (treeLabel t) := by
  cases t with
  | directory entries => rfl
  | symlink target => rfl
  | regular executable contents => cases executable <;> rfl

inductive UpperNode where
  | whiteout
  /-- `lower` is the lower directory that shows in it: the one at its own path, another
  one if it was renamed, none if it is opaque. -/
  | directory (lower : Option Path) (metadata : Metadata)
  /-- A metadata-only copy-up has no data. -/
  | regular (data : Option Bytes) (metadata : Metadata)
  | symlink (target : Bytes) (metadata : Metadata)
  | special (type : SpecialType) (metadata : Metadata)
  deriving DecidableEq

def UpperNode.isDirectory : UpperNode → Bool
  | directory _ _ => true
  | _ => false

theorem not_snoc_below (p : Path) (name : Name) : ¬ p ++ [name] <+: p := by
  intro h
  have hlen := h.length_le
  simp at hlen

theorem UpperNode.isDirectory_iff {n : UpperNode} :
    n.isDirectory = true ↔ ∃ lower metadata, n = .directory lower metadata := by
  cases n <;> simp [isDirectory]

structure Layer where
  node : Path → Option UpperNode
  dom : List Path
  mem_dom : ∀ q, node q ≠ none → q ∈ dom
  root : ∃ metadata, node [] = some (.directory (some []) metadata)
  parent_dir : ∀ q name, node (q ++ [name]) ≠ none →
    ∃ lower metadata, node q = some (.directory lower metadata)
  valid_names : ∀ q, node q ≠ none → ∀ name ∈ q, ValidName name

namespace Layer

/-- The layer of a new overlay. -/
def empty : Layer where
  node q := if q = [] then some (.directory (some []) ⟨0o755, 0, 0⟩) else none
  dom := [[]]
  mem_dom q hq := by
    by_cases h : q = []
    · simp [h]
    · simp [h] at hq
  root := ⟨_, rfl⟩
  parent_dir q name h := by simp at h
  valid_names q h := by
    by_cases hq : q = []
    · simp [hq]
    · simp [hq] at h

def IsDir (U : Layer) (q : Path) : Prop :=
  ∃ lower metadata, U.node q = some (.directory lower metadata)

instance (U : Layer) (q : Path) : Decidable (U.IsDir q) :=
  match h : U.node q with
  | some (.directory lower metadata) => isTrue ⟨lower, metadata, h⟩
  | some .whiteout | some (.regular _ _) | some (.symlink _ _) | some (.special _ _) | none =>
      isFalse fun ⟨lower, metadata, hdir⟩ => by rw [h] at hdir; cases hdir

variable (U : Layer)

/-- Put a node at a name of a directory of the layer.  What was below the name goes,
unless the node is a directory too. -/
def set (p : Path) (name : Name) (n : UpperNode) : Layer :=
  if h : U.IsDir p ∧ ValidName name then
    { node := fun q =>
        if q = p ++ [name] then some n
        else if p ++ [name] <+: q ∧ n.isDirectory = false then none
        else U.node q
      dom := (p ++ [name]) :: U.dom
      mem_dom := fun q hq => by
        by_cases hp : q = p ++ [name]
        · simp [hp]
        · exact List.mem_cons_of_mem _ (U.mem_dom q (by grind))
      root := by
        obtain ⟨metadata, hroot⟩ := U.root
        exact ⟨metadata, by simp [hroot]⟩
      parent_dir := fun q name' hq => by
        by_cases hself : q ++ [name'] = p ++ [name]
        · obtain ⟨rfl, -⟩ := List.append_inj' hself rfl
          obtain ⟨lower, metadata, hdir⟩ := h.1
          refine ⟨lower, metadata, ?_⟩
          rw [if_neg (by simp), if_neg fun hbelow => not_snoc_below _ _ hbelow.1, hdir]
        · rw [if_neg hself] at hq
          split at hq
          · exact absurd rfl hq
          · rename_i hkept
            obtain ⟨lower, metadata, hdir⟩ := U.parent_dir q name' hq
            by_cases hp : q = p ++ [name]
            · have hn : n.isDirectory = true := by
                by_contra hn
                exact hkept ⟨hp ▸ List.prefix_append _ _, by simpa using hn⟩
              obtain ⟨lower', metadata', rfl⟩ := UpperNode.isDirectory_iff.mp hn
              exact ⟨lower', metadata', by rw [if_pos hp]⟩
            · refine ⟨lower, metadata, ?_⟩
              rw [if_neg hp, if_neg fun hbelow =>
                hkept ⟨hbelow.1.trans (List.prefix_append _ _), hbelow.2⟩, hdir]
      valid_names := fun q hq => by
        by_cases hp : q = p ++ [name]
        · obtain ⟨lower, metadata, hdir⟩ := h.1
          have hnames := U.valid_names p (by simp [hdir])
          rintro n hn
          rw [hp] at hn
          rcases List.mem_append.mp hn with hn | hn
          · exact hnames n hn
          · rw [List.mem_singleton.mp hn]
            exact h.2
        · exact U.valid_names q (by grind) }
  else U

/-- The node at a name of a directory goes, with all below it. -/
def clear (p : Path) (name : Name) : Layer where
  node q := if p ++ [name] <+: q then none else U.node q
  dom := U.dom
  mem_dom q hq := U.mem_dom q (by grind)
  root := by
    obtain ⟨metadata, hroot⟩ := U.root
    exact ⟨metadata, by simp [hroot]⟩
  parent_dir q name' hq := by
    split at hq
    · exact absurd rfl hq
    · rename_i hkept
      obtain ⟨lower, metadata, hdir⟩ := U.parent_dir q name' hq
      refine ⟨lower, metadata, ?_⟩
      rw [if_neg fun hbelow => hkept (hbelow.trans (List.prefix_append _ _)), hdir]
  valid_names q hq := U.valid_names q (by grind)

/-- The directory at `src` moves to a name of another directory, with all below it. -/
def graft (src : Path) (p : Path) (name : Name) : Layer :=
  if h : U.IsDir p ∧ ValidName name ∧ src ≠ [] ∧ U.IsDir src ∧ ¬ src <+: p ++ [name] ∧
      ¬ p ++ [name] <+: src then
    { node := fun q =>
        if p ++ [name] <+: q then U.node (src ++ q.drop (p ++ [name]).length)
        else if src <+: q then none
        else U.node q
      dom := U.dom ++ U.dom.map fun q => p ++ [name] ++ q.drop src.length
      mem_dom := fun q hq => by
        split at hq
        · rename_i hbelow
          obtain ⟨r, rfl⟩ := hbelow
          rw [List.drop_left] at hq
          refine List.mem_append_right _ (List.mem_map.mpr ⟨src ++ r, U.mem_dom _ hq, ?_⟩)
          rw [List.drop_left]
        · exact List.mem_append_left _ (U.mem_dom q (by grind))
      root := by
        obtain ⟨metadata, hroot⟩ := U.root
        exact ⟨metadata, by simp [h.2.2.1, hroot]⟩
      parent_dir := fun q name' hq => by
        obtain ⟨⟨lower, metadata, hdir⟩, -, -, ⟨lower', metadata', hsrc⟩, hapart, -⟩ := h
        split at hq
        · rename_i hbelow
          obtain ⟨r, hr⟩ := hbelow
          rcases List.eq_nil_or_concat r with rfl | ⟨r, last, rfl⟩
          · rw [List.append_nil] at hr
            obtain ⟨rfl, -⟩ := List.append_inj' hr rfl
            refine ⟨lower, metadata, ?_⟩
            rw [if_neg (not_snoc_below _ _), if_neg fun h => hapart (h.trans (List.prefix_append _ _)), hdir]
          · rw [List.concat_eq_append, ← List.append_assoc] at hr
            obtain ⟨rfl, hlast⟩ := List.append_inj' hr rfl
            rw [List.append_assoc, List.drop_left, ← List.append_assoc] at hq
            obtain ⟨lower, metadata, hdir⟩ := U.parent_dir _ _ hq
            exact ⟨lower, metadata, by rw [if_pos (List.prefix_append _ _), List.drop_left, hdir]⟩
        · rename_i houtside
          split at hq
          · exact absurd rfl hq
          · rename_i hkept
            obtain ⟨lower, metadata, hdir⟩ := U.parent_dir q name' hq
            refine ⟨lower, metadata, ?_⟩
            rw [if_neg fun hb => houtside (hb.trans (List.prefix_append _ _)),
              if_neg fun hb => hkept (hb.trans (List.prefix_append _ _)), hdir]
      valid_names := fun q hq n hn => by
        obtain ⟨⟨lower, metadata, hdir⟩, hname, -⟩ := h
        split at hq
        · rename_i hbelow
          obtain ⟨r, rfl⟩ := hbelow
          rw [List.drop_left] at hq
          rcases List.mem_append.mp hn with hn | hn
          · rcases List.mem_append.mp hn with hn | hn
            · exact U.valid_names p (by simp [hdir]) n hn
            · rw [List.mem_singleton.mp hn]
              exact hname
          · exact U.valid_names _ hq n (List.mem_append_right _ hn)
        · exact U.valid_names q (by grind) n hn }
  else U

end Layer

/-! ## The merged view -/

namespace Layer

variable (g : Generation) (U : Layer)

/-- One step of a lookup: where it is, and the lower path that shows there. -/
def enter (st : Path × Option Path) (name : Name) : Path × Option Path :=
  (st.1 ++ [name],
    match U.node (st.1 ++ [name]) with
    | some (.directory lower _) => lower
    | some _ => none
    | none => st.2.map (· ++ [name]))

/-- The lower path that shows at a path. -/
def origin (q : Path) : Option Path := (q.foldl U.enter ([], some [])).2

/-- The lower path that would show at a path without a node of the upper layer. -/
def covered (q : Path) : Option Path :=
  match q.getLast? with
  | some name => (U.origin q.dropLast).map (· ++ [name])
  | none => some []

/-- What a node of the upper layer shows as; a metadata-only copy-up has the data of
the lower file. -/
def shown (lower : Option FileNode) : UpperNode → Option FileNode
  | .whiteout => none
  | .directory _ metadata => some (.directory metadata)
  | .regular (some data) metadata => some (.regular data metadata)
  | .regular none metadata =>
      match lower with
      | some (.regular contents _) => some (.regular contents metadata)
      | _ => some (.regular [] metadata)
  | .symlink target metadata => some (.symlink target metadata)
  | .special type metadata => some (.special type metadata)

def merged (q : Path) : Option FileNode :=
  match U.node q with
  | some n => shown ((U.covered q).bind g.node) n
  | none => (U.origin q).bind g.node

/-- The names that may be in a directory of the merged view. -/
def candidates (p : Path) : List Name :=
  (U.dom.filterMap fun q => if q.dropLast = p then q.getLast? else none) ++
    match (U.origin p).bind g.tree.get? with
    | some (.directory entries) => entries.map (·.1)
    | _ => []

def isDirAt (q : Path) : Bool :=
  match U.merged g q with
  | some (.directory _) => true
  | _ => false

/-- A directory of the merged view with no names in it. -/
def isEmptyAt (p : Path) : Bool :=
  (U.candidates g p).all fun name => (U.merged g (p ++ [name])).isNone

/-- All paths of the merged view. -/
def paths : List Path :=
  ((U.dom ++ U.dom.flatMap fun a =>
    match U.node a with
    | some (.directory (some lower) _) => ((g.tree.get? lower).map Tree.paths).getD [] |>.map (a ++ ·)
    | _ => []).filter fun q => (U.merged g q).isSome).dedup

end Layer

/-! ## Changes -/

/-- A change to the merged view, at a name of a directory. -/
inductive Change where
  | create (p : Path) (name : Name) (contents : Bytes) (metadata : Metadata)
  | mkdir (p : Path) (name : Name) (metadata : Metadata)
  | symlink (p : Path) (name : Name) (target : Bytes) (metadata : Metadata)
  | mknod (p : Path) (name : Name) (type : SpecialType) (metadata : Metadata)
  | write (p : Path) (name : Name) (contents : Bytes)
  /-- `chmod` and `chown`. -/
  | setattr (p : Path) (name : Name) (metadata : Metadata)
  /-- `unlink` and `rmdir`. -/
  | remove (p : Path) (name : Name)
  | rename (src : Path) (srcName : Name) (p : Path) (name : Name)

namespace Layer

variable (g : Generation)

/-- Copy the directories on the way up, with their metadata. -/
def copyUpFrom : Layer → Path → List Name → Layer
  | U, _, [] => U
  | U, cur, name :: rest =>
      let U' :=
        match U.node (cur ++ [name]), U.merged g (cur ++ [name]) with
        | none, some (.directory metadata) =>
            U.set cur name (.directory (U.origin (cur ++ [name])) metadata)
        | _, _ => U
      copyUpFrom U' (cur ++ [name]) rest

def copyUp (U : Layer) (p : Path) : Layer := copyUpFrom g U [] p

/-- Put a node at a name of the merged view. -/
def place (U : Layer) (p : Path) (name : Name) (n : UpperNode) : Layer :=
  (U.copyUp g p).set p name n

/-- Take the node at a name out of the merged view: with a whiteout, if a lower one
would show. -/
def hide (U : Layer) (p : Path) (name : Name) : Layer :=
  if ((U.covered (p ++ [name])).bind g.node).isSome then U.place g p name .whiteout
  else U.clear p name

/-- Nothing is at the name, and it may be made. -/
def isFree (U : Layer) (p : Path) (name : Name) : Bool :=
  U.isDirAt g p && (U.merged g (p ++ [name])).isNone

/-- What `rename` may replace. -/
def isReplaceable (U : Layer) (src dst : Path) : Bool :=
  match U.merged g src, U.merged g dst with
  | some _, none => true
  | some (.directory _), some (.directory _) => U.isEmptyAt g dst
  | some (.directory _), some _ => false
  | some _, some (.directory _) => false
  | some _, some _ => true
  | none, _ => false

/-- A node of its own for what the merged view shows. -/
def fullCopy (lower : Option Path) : FileNode → UpperNode
  | .directory metadata => .directory lower metadata
  | .regular contents metadata => .regular (some contents) metadata
  | .symlink target metadata => .symlink target metadata
  | .special type metadata => .special type metadata

/-- A change; one that is refused leaves everything as it is. -/
def apply (U : Layer) : Change → Layer
  | .create p name contents metadata =>
      if U.isFree g p name then U.place g p name (.regular (some contents) metadata) else U
  | .mkdir p name metadata =>
      -- opaque: what a whiteout hid stays hidden
      if U.isFree g p name then U.place g p name (.directory none metadata) else U
  | .symlink p name target metadata =>
      if U.isFree g p name then U.place g p name (.symlink target metadata) else U
  | .mknod p name type metadata =>
      if U.isFree g p name then U.place g p name (.special type metadata) else U
  | .write p name contents =>
      match U.merged g (p ++ [name]) with
      | some (.regular _ metadata) => U.place g p name (.regular (some contents) metadata)
      | _ => U
  | .setattr p name metadata =>
      match U.merged g (p ++ [name]), U.node (p ++ [name]) with
      | some (.directory _), _ =>
          U.place g p name (.directory (U.origin (p ++ [name])) metadata)
      | some (.regular _ _), some (.regular data _) => U.place g p name (.regular data metadata)
      | some (.regular _ _), _ => U.place g p name (.regular none metadata)
      | some (.symlink target _), _ => U.place g p name (.symlink target metadata)
      | some (.special type _), _ => U.place g p name (.special type metadata)
      | none, _ => U
  | .remove p name =>
      match U.merged g (p ++ [name]) with
      | some (.directory _) => if U.isEmptyAt g (p ++ [name]) then U.hide g p name else U
      | some _ => U.hide g p name
      | none => U
  | .rename src srcName p name =>
      let old := src ++ [srcName]
      let new := p ++ [name]
      if U.isDirAt g p ∧ ¬ old <+: new ∧ ¬ new <+: old ∧ U.isReplaceable g old new then
        match U.merged g old with
        | some (.directory _) =>
            -- the directory keeps showing the lower one it was merged with
            let V := ((U.copyUp g old).copyUp g p).graft old p name
            if ((U.covered old).bind g.node).isSome then V.set src srcName .whiteout else V
        | some n => (U.place g p name (fullCopy none n)).hide g src srcName
        | none => U
      else U

end Layer

/-! ## Capture -/

/-- What `getcap`, `getfacl`, `getfattr` and `lsattr` find: none of it is in the nodes. -/
structure Probes where
  caps : Bytes
  acls : Bytes
  xattrs : Bytes
  attrs : Bytes

namespace Layer

variable (g : Generation)

/-- `find .` as far as `perms` goes. -/
def findEntries (U : Layer) : List Entry :=
  (U.paths g).filterMap fun q =>
    let path := str "." ++ CanonPath.abs q
    if q = [] then none
    else
      match U.merged g q with
      | some (.directory metadata) => some ⟨path, .directory, metadata, false⟩
      | some (.regular _ metadata) => some ⟨path, .regular, metadata, false⟩
      | some (.symlink _ metadata) => some ⟨path, .symlink, metadata, false⟩
      | _ => none

def manifestDir : Path := [str "etc", str "nixgen"]

/-- `> etc/nixgen/name`. -/
def writeOut (U : Layer) (name : String) (contents : Bytes) : Layer :=
  match U.merged g (manifestDir ++ [str name]) with
  | some _ => U.apply g (.write manifestDir (str name) contents)
  | none => U.apply g (.create manifestDir (str name) contents ⟨0o644, 0, 0⟩)

/-- `nixgen-savemeta`. -/
def savemeta (probes : Probes) (U : Layer) : Layer :=
  let U := U.apply g (.mkdir [] (str "etc") ⟨0o755, 0, 0⟩)
  let U := U.apply g (.mkdir [str "etc"] (str "nixgen") ⟨0o755, 0, 0⟩)
  -- the file is open, and empty, when the walk comes by
  let U := U.writeOut g "perms" []
  let U := U.writeOut g "perms" (sortedRows (U.findEntries g))
  let U := U.writeOut g "caps" probes.caps
  let U := U.writeOut g "acls" probes.acls
  let U := U.writeOut g "xattrs" probes.xattrs
  U.writeOut g "attrs" probes.attrs

/-- A session in the merged view, and the capture after it. -/
def session (probes : Probes) (changes : List Change) : Layer :=
  savemeta g probes (changes.foldl (apply g) empty)

end Layer

end Nixgen
end Archinix
