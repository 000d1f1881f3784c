import Archinix.Host.PosixSourceAccessor
import Archinix.Host.Labels

/-!
# What a dump of the file system depends on

The archive of a path is that of the tree it holds, whatever the kernel's choices
(`Holds.dumpPath`), and a dump that succeeds is one of such a tree
(`holds_of_dumpPath`).  Two paths that agree in their labels are dumped alike even
where the dump fails (`dumpPath_alike`), and those dumped to the same archive agree.
-/

namespace Archinix
namespace Host

open Foundation Util

/-! ## Sorted listings -/

/-- The keys of a map are in strictly ascending order. -/
def Sorted {α : Type} (entries : List (Name × α)) : Prop :=
  (entries.map (·.1)).Pairwise (· < ·)

section Emplace

variable {name : Name} {type : Option FileType} {entries : List (Name × Option FileType)}

theorem map_emplace_mem {other : Name} :
    other ∈ (emplace name type entries).map (·.1) ↔ other = name ∨ other ∈ entries.map (·.1) := by
  induction entries with
  | nil => simp [emplace]
  | cons e rest ih =>
      unfold emplace
      split
      · simp only [List.map_cons, List.mem_cons, ih]
        tauto
      · split
        · rename_i heq
          simp only [List.map_cons, List.mem_cons, heq]
          tauto
        · simp

theorem sorted_emplace (h : Sorted entries) : Sorted (emplace name type entries) := by
  induction entries with
  | nil => simp [emplace, Sorted]
  | cons e rest ih =>
      unfold Sorted at h ih ⊢
      rw [List.map_cons, List.pairwise_cons] at h
      unfold emplace
      split
      · rename_i hlt
        rw [List.map_cons, List.pairwise_cons]
        refine ⟨fun other hother => ?_, ih h.2⟩
        rcases map_emplace_mem.mp hother with rfl | hrest
        · exact hlt
        · exact h.1 other hrest
      · split
        · rw [List.map_cons, List.pairwise_cons]
          exact h
        · rename_i hge hne
          have hlt : name < e.1 := Name.lt_of_not_lt hge hne
          rw [List.map_cons, List.pairwise_cons, List.map_cons, List.pairwise_cons]
          refine ⟨fun other hother => ?_, h⟩
          rcases List.mem_cons.mp hother with rfl | hrest
          · exact hlt
          · exact Name.lt_trans hlt (h.1 other hrest)

/-- A new key is added with its value, and the others keep theirs. -/
theorem mem_emplace (hnew : name ∉ entries.map (·.1)) {e : Name × Option FileType} :
    e ∈ emplace name type entries ↔ e = (name, type) ∨ e ∈ entries := by
  induction entries with
  | nil => simp [emplace]
  | cons first rest ih =>
      rw [List.map_cons, List.mem_cons, not_or] at hnew
      unfold emplace
      split
      · simp only [List.mem_cons, ih hnew.2]
        tauto
      · rw [if_neg (Ne.symm hnew.1)]
        simp

end Emplace

variable {fs : FileSystem} {kernel : Kernel}

section Entries

open PosixDirectorySourceAccessor

/-- Reading distinct entries into the map keeps them all, in order of their names. -/
theorem foldl_emplace (dirents : List DirEntry) (entries : List (Name × Option FileType))
    (hsorted : Sorted entries) (hnodup : (dirents.map (·.name)).Nodup)
    (hnew : ∀ d ∈ dirents, d.name ∉ entries.map (·.1)) :
    Sorted (dirents.foldl (fun entries d => emplace d.name (some d.type) entries) entries) ∧
    ∀ e, e ∈ dirents.foldl (fun entries d => emplace d.name (some d.type) entries) entries ↔
      e ∈ entries ∨ ∃ d ∈ dirents, e = (d.name, some d.type) := by
  induction dirents generalizing entries with
  | nil => simp [hsorted]
  | cons d rest ih =>
      rw [List.map_cons, List.nodup_cons] at hnodup
      have hfirst : d.name ∉ entries.map (·.1) := hnew d (by simp)
      have hrest : ∀ d' ∈ rest, d'.name ∉ (emplace d.name (some d.type) entries).map (·.1) := by
        intro d' hd' hmem
        rcases map_emplace_mem.mp hmem with heq | hold
        · exact hnodup.1 (heq ▸ List.mem_map_of_mem hd')
        · exact hnew d' (by simp [hd']) hold
      obtain ⟨hs, hmem⟩ := ih _ (sorted_emplace hsorted) hnodup.2 hrest
      refine ⟨hs, fun e => ?_⟩
      rw [List.foldl_cons, hmem e, mem_emplace hfirst]
      simp only [List.mem_cons, exists_eq_or_imp]
      tauto

/-- The map read from a directory. -/
theorem readEntriesFrom_spec (fs : FileSystem) (kernel : Kernel) (dir : Path) :
    Sorted (readEntriesFrom fs kernel dir) ∧
    ∀ e, e ∈ readEntriesFrom fs kernel dir ↔
      ∃ n, fs.node (dir ++ [e.1]) = some n ∧ e.2 = some (fs.entryOf e.1 n).type := by
  have hperm := kernel.perm_order dir (fs.entries dir)
  have hnodup : ((kernel.order dir (fs.entries dir)).map (·.name)).Nodup := by
    rw [(hperm.map _).nodup_iff, FileSystem.map_name_entries]
    exact FileSystem.nodup_names
  obtain ⟨hs, hmem⟩ := foldl_emplace (kernel.order dir (fs.entries dir)) [] (by simp [Sorted])
    hnodup (by simp)
  refine ⟨hs, fun e => (hmem e).trans ?_⟩
  have hname : ∀ name n, (fs.entryOf name n).name = name := by
    intro name n
    cases n <;> rfl
  constructor
  · rintro (hnil | ⟨d, hd, rfl⟩)
    · cases hnil
    · obtain ⟨n, hn, hd⟩ := FileSystem.mem_entries.mp (hperm.mem_iff.mp hd)
      exact ⟨n, hn, by rw [← hd]⟩
  · rintro ⟨n, hn, htype⟩
    refine Or.inr ⟨fs.entryOf e.1 n, hperm.mem_iff.mpr (FileSystem.mem_entries.mpr ⟨n, ?_, ?_⟩), ?_⟩
    · rwa [hname]
    · rw [hname]
    · rw [hname, ← htype]

/-- The entries a dumper goes on with. -/
def dumped (entries : List (Name × Option FileType)) : List (Name × Option FileType) :=
  entries.filter fun e => e.2 ≠ some .tFifo ∧ e.2 ≠ some .tSocket

/-- They are the labelled nodes of the directory. -/
theorem dumped_spec (fs : FileSystem) (kernel : Kernel) (dir : Path) :
    Sorted (dumped (readEntriesFrom fs kernel dir)) ∧
    ∀ name, name ∈ (dumped (readEntriesFrom fs kernel dir)).map (·.1) ↔
      fs.label (dir ++ [name]) ≠ none := by
  obtain ⟨hs, hmem⟩ := readEntriesFrom_spec fs kernel dir
  refine ⟨hs.sublist (List.Sublist.map _ List.filter_sublist), fun name => ?_⟩
  have hlabel : ∀ n, fs.node (dir ++ [name]) = some n →
      (fs.label (dir ++ [name]) ≠ none ↔
        (fs.entryOf name n).type ≠ .tFifo ∧ (fs.entryOf name n).type ≠ .tSocket) := by
    intro n hn
    cases n with
    | directory mode mtime => simp [FileSystem.label, hn, FileSystem.entryOf]
    | leaf i =>
        simp only [FileSystem.label, hn, FileSystem.entryOf, Inode.label]
        rcases (fs.inode i).kind with contents | target | (_ | _ | _ | _) <;>
          simp [InodeKind.type, SpecialType.type]
  simp only [dumped, List.mem_map, List.mem_filter, decide_eq_true_eq, hmem]
  constructor
  · rintro ⟨e, ⟨⟨n, hn, htype⟩, hfifo, hsocket⟩, rfl⟩
    rw [hlabel n hn]
    rw [htype] at hfifo hsocket
    exact ⟨fun h => hfifo (congrArg some h), fun h => hsocket (congrArg some h)⟩
  · intro h
    obtain ⟨n, hn⟩ := Option.ne_none_iff_exists'.mp (FileSystem.node_of_label h)
    obtain ⟨hfifo, hsocket⟩ := (hlabel n hn).mp h
    exact ⟨(name, some (fs.entryOf name n).type), ⟨⟨n, hn, rfl⟩, by simpa using hfifo,
      by simpa using hsocket⟩, rfl⟩

end Entries

/-- Keys in ascending order are determined by what they are. -/
theorem names_eq {l₁ l₂ : List Name} (h₁ : l₁.Pairwise (· < ·)) (h₂ : l₂.Pairwise (· < ·))
    (h : ∀ name, name ∈ l₁ ↔ name ∈ l₂) : l₁ = l₂ := by
  have hperm : l₁.Perm l₂ :=
    (List.perm_ext_iff_of_nodup (h₁.imp Name.ne_of_lt) (h₂.imp Name.ne_of_lt)).mpr h
  exact hperm.eq_of_pairwise
    (fun a b _ _ hab hba => absurd rfl (Name.ne_of_lt (Name.lt_trans hab hba))) h₁ h₂

/-! ## What the accessors answer -/

theorem copyFdRange_eq (kernel : Kernel) (fsPath : Path) (contents : Bytes) :
    copyFdRange kernel fsPath contents contents.length = ⟨contents, .ok ()⟩ := by
  have hgo : ∀ chunks : List Bytes,
      chunks.forM Emit.tellAll = (⟨chunks.flatten, .ok ()⟩ : Writer Unit) := by
    intro chunks
    induction chunks with
    | nil => rfl
    | cons chunk rest ih =>
        rw [List.forM_eq_forM] at ih ⊢
        rw [List.forM_cons, ih]
        rfl
  rw [copyFdRange, hgo, List.take_length, kernel.reads.flatten_cut]
  simp

theorem posixFile_readFile {fs : FileSystem} {i : Nat} {contents : Bytes} (fsPath : Path)
    (h : (fs.inode i).kind = .regular contents) :
    PosixFileSourceAccessor.readFile fs kernel fsPath i [] =
      .ok (contents.length, Emit.tellAll contents) := by
  have hsize : (fs.statInode i).size = contents.length := by
    simp [FileSystem.statInode, h, InodeKind.size]
  simp [PosixFileSourceAccessor.readFile, h, hsize, copyFdRange_eq, Emit.tellAll]

section Queries

variable {root q : Path}

theorem openDirectoryBeneath_of_isDir (h : fs.IsDir (root ++ q)) :
    openDirectoryBeneath fs root q = .ok (root ++ q) := by
  induction q generalizing root with
  | nil => simp [openDirectoryBeneath]
  | cons name rest ih =>
      rw [List.append_cons] at h
      have hnode : fs.IsDir (root ++ [name]) := by
        by_cases hrest : rest = []
        · simpa [hrest] using h
        · obtain ⟨mode, mtime, hdir⟩ := h
          exact FileSystem.isDir_of_below hrest (by rw [hdir]; simp)
      obtain ⟨mode, mtime, hdir⟩ := hnode
      rw [openDirectoryBeneath, hdir]
      show openDirectoryBeneath fs (root ++ [name]) rest = _
      rw [ih h, ← List.append_cons]

namespace PosixDirectorySourceAccessor

theorem lookup_eq (hq : q ≠ []) (h : fs.IsDir (root ++ q.dropLast)) (ignoreMissing : Bool) :
    lookup fs root q ignoreMissing = .ok (fs.node (root ++ q)) := by
  have hlast : root ++ q.dropLast ++ [q.getLast?.getD []] = root ++ q := by
    rw [List.append_assoc, List.getLast?_eq_some_getLast hq, Option.getD_some,
      List.dropLast_append_getLast hq]
  rw [lookup, openParent, openDirectoryBeneath_of_isDir h]
  show Except.ok (fs.node (root ++ q.dropLast ++ [q.getLast?.getD []])) = _
  rw [hlast]

/-- The root is a directory, and so is the parent of every other path asked for. -/
def Walked (fs : FileSystem) (root q : Path) : Prop :=
  fs.IsDir root ∧ (q ≠ [] → fs.IsDir (root ++ q.dropLast))

theorem Walked.child {name : Name} (h : fs.IsDir root) (hq : fs.IsDir (root ++ q)) :
    Walked fs root (q ++ [name]) :=
  ⟨h, fun _ => by rwa [List.dropLast_concat]⟩

theorem Walked.maybeLstat (h : Walked fs root q) : maybeLstat fs root q =
    .ok ((fs.node (root ++ q)).map fun n => sourceAccessorStatFromPosixStat (fs.statNode n)) := by
  by_cases hq : q = []
  · simp [PosixDirectorySourceAccessor.maybeLstat, hq]
  · rw [PosixDirectorySourceAccessor.maybeLstat, if_neg hq, lookup_eq hq (h.2 hq)]
    rfl

theorem Walked.ne_root (h : Walked fs root q) {i : Nat} (hnode : fs.node (root ++ q) = some (.leaf i)) :
    q ≠ [] := by
  rintro rfl
  obtain ⟨mode, mtime, hdir⟩ := h.1
  rw [List.append_nil, hdir] at hnode
  cases hnode

theorem Walked.readFile (h : Walked fs root q) {i : Nat} {contents : Bytes}
    (hnode : fs.node (root ++ q) = some (.leaf i)) (hkind : (fs.inode i).kind = .regular contents) :
    readFile fs kernel root q = .ok (contents.length, Emit.tellAll contents) := by
  have hq := h.ne_root hnode
  rw [PosixDirectorySourceAccessor.readFile, if_neg hq, lookup_eq hq (h.2 hq), hnode]
  simp only [bind, Except.bind, hkind]
  exact posixFile_readFile (root ++ q) hkind

theorem Walked.readLink (h : Walked fs root q) {i : Nat} {target : Bytes}
    (hnode : fs.node (root ++ q) = some (.leaf i)) (hkind : (fs.inode i).kind = .symlink target) :
    readLink fs root q = .ok target := by
  have hq := h.ne_root hnode
  rw [PosixDirectorySourceAccessor.readLink, if_neg hq, lookup_eq hq (h.2 hq), hnode]
  simp only [bind, Except.bind, hkind]

theorem Walked.readDirectory (h : Walked fs root q) (hdir : fs.IsDir (root ++ q)) :
    readDirectory fs kernel root q = .ok (readEntriesFrom fs kernel (root ++ q)) := by
  have hopen : openSubdirectory fs root q = .ok (root ++ q) := by
    by_cases hq : q = []
    · simp [openSubdirectory, hq]
    · obtain ⟨mode, mtime, hnode⟩ := hdir
      rw [openSubdirectory, if_neg hq, lookup_eq hq (h.2 hq), hnode]
      rfl
  rw [PosixDirectorySourceAccessor.readDirectory, hopen]
  rfl

end PosixDirectorySourceAccessor

end Queries

/-! ## Dumps -/

section Shows

open PosixDirectorySourceAccessor

variable {root q : Path}

theorem Walked.shows_regular (h : Walked fs root q) {executable : Bool} {contents : Bytes}
    (hlabel : fs.label (root ++ q) = some (.regular executable contents)) :
    (posixDirectorySourceAccessor fs kernel root).Shows q (.regular executable contents) := by
  obtain ⟨i, hnode, hinode⟩ := FileSystem.leaf_of_label hlabel (by simp)
  obtain ⟨hkind, hmode⟩ := Inode.kind_of_label_regular hinode
  refine .regular ?_ (h.readFile hnode hkind)
  show PosixDirectorySourceAccessor.maybeLstat fs root q = _
  rw [h.maybeLstat, hnode]
  simp [sourceAccessorStatFromPosixStat, FileSystem.statNode, FileSystem.statInode, hkind,
    InodeKind.type, hmode]

theorem Walked.shows_symlink (h : Walked fs root q) {target : Bytes}
    (hlabel : fs.label (root ++ q) = some (.symlink target)) :
    (posixDirectorySourceAccessor fs kernel root).Shows q (.symlink target) := by
  obtain ⟨i, hnode, hinode⟩ := FileSystem.leaf_of_label hlabel (by simp)
  have hkind := Inode.kind_of_label_symlink hinode
  have hlstat : PosixDirectorySourceAccessor.maybeLstat fs root q =
      .ok (some ⟨.tSymlink, false⟩) := by
    rw [h.maybeLstat, hnode]
    simp [sourceAccessorStatFromPosixStat, FileSystem.statNode, FileSystem.statInode, hkind,
      InodeKind.type]
  exact .symlink hlstat (h.readLink hnode hkind)

/-- The dumper throws at a device. -/
theorem Walked.dump_device (kernel : Kernel) (h : Walked fs root q) {type : SpecialType}
    (hlabel : fs.label (root ++ q) = some (.device type)) (levels : Nat) (relPath : CanonPath) :
    ∃ err, (posixDirectorySourceAccessor fs kernel root).dump (levels + 1) q relPath =
      ⟨encodeString (str "("), .error err⟩ := by
  obtain ⟨i, hnode, hinode⟩ := FileSystem.leaf_of_label hlabel (by simp)
  obtain ⟨hkind, hsocket, hfifo⟩ := Inode.kind_of_label_device hinode
  have hlstat : (posixDirectorySourceAccessor fs kernel root).maybeLstat q =
      .ok (some ⟨type.type, false⟩) := by
    show PosixDirectorySourceAccessor.maybeLstat fs root q = _
    rw [h.maybeLstat, hnode]
    cases type <;> simp [sourceAccessorStatFromPosixStat, FileSystem.statNode, FileSystem.statInode,
      hkind, InodeKind.type, SpecialType.type]
  refine ⟨⟨.error, "file '%s' has an unsupported type", [CanonPath.abs relPath]⟩, ?_⟩
  cases type with
  | char => simp [SourceAccessor.dump, SourceAccessor.lstat_eq hlstat, SpecialType.type]
  | block => simp [SourceAccessor.dump, SourceAccessor.lstat_eq hlstat, SpecialType.type]
  | socket => exact absurd rfl hsocket
  | fifo => exact absurd rfl hfifo

theorem Walked.lstat_directory (h : Walked fs root q) (hdir : fs.IsDir (root ++ q)) :
    (posixDirectorySourceAccessor fs kernel root).maybeLstat q = .ok (some ⟨.tDirectory, false⟩) := by
  obtain ⟨mode, mtime, hnode⟩ := hdir
  show PosixDirectorySourceAccessor.maybeLstat fs root q = _
  rw [h.maybeLstat, hnode]
  rfl

/-- One round of the loop over the entries of a directory. -/
def writeEntry (child : Name → Writer Unit) (name : Name) : Writer Unit := do
  writeString (str "entry")
  writeString (str "(")
  writeString (str "name")
  writeString name
  writeString (str "node")
  child name
  writeString (str ")")

theorem writeEntry_ok {child : Name → Writer Unit} {name : Name} {items : Bytes}
    (h : writeEntry child name = ⟨items, .ok ()⟩) : ∃ bs, child name = ⟨bs, .ok ()⟩ := by
  simp only [writeEntry, writeString_eq, Emit.bind_ok, Emit.prepend_prepend] at h
  obtain ⟨second, hsecond⟩ := Emit.prepend_eq_ok h
  obtain ⟨bs, _, rest, hchild, -, -⟩ := Emit.bind_eq_ok hsecond
  exact ⟨bs, hchild⟩

theorem Walked.dump_directory (h : Walked fs root q) (hdir : fs.IsDir (root ++ q)) (levels : Nat)
    (relPath : CanonPath) :
    (posixDirectorySourceAccessor fs kernel root).dump (levels + 1) q relPath =
      (((dumped (readEntriesFrom fs kernel (root ++ q))).map (·.1)).forM
        (writeEntry fun name =>
          (posixDirectorySourceAccessor fs kernel root).dump levels (q ++ [name]) [name]) >>=
        fun _ => writeString (str ")")).prepend
      (encodeString (str "(") ++ encodeString (str "type") ++ encodeString (str "directory")) := by
  have hread : (posixDirectorySourceAccessor fs kernel root).readDirectory q =
      .ok (readEntriesFrom fs kernel (root ++ q)) := h.readDirectory hdir
  have hloop : ∀ listing : List (Name × Option FileType), ∀ f : Name → Writer Unit,
      (listing.map (·.1)).forM f = listing.forM fun e => f e.1 := by
    intro listing f
    rw [List.forM_eq_forM, List.forM_map]
    rfl
  simp only [SourceAccessor.dump, SourceAccessor.lstat_eq (Walked.lstat_directory h hdir), hread,
    SourceAccessor.query, Emit.bind_ok, Emit.prepend_nil]
  rw [hloop, writeString_eq, writeString_eq, writeString_eq, Emit.bind_ok, Emit.bind_ok,
    Emit.bind_ok, Emit.prepend_prepend, Emit.prepend_prepend, List.append_assoc]
  rfl

end Shows

section Dumps

open PosixDirectorySourceAccessor

variable {root q : Path} {t : Tree}

/-- The accessor of a directory shows what the directory holds. -/
theorem FileSystem.Holds.shows (h : fs.Holds (root ++ q) t) (ht : InOrder t) (hq : Walked fs root q) :
    (posixDirectorySourceAccessor fs kernel root).Shows q t := by
  induction t using Tree.inductionOn generalizing q with
  | regular executable contents => exact Walked.shows_regular hq h.root
  | symlink target => exact Walked.shows_symlink hq h.root
  | directory entries ih =>
      cases ht with
      | directory hsorted hchildren =>
          have hdir := FileSystem.isDir_of_label h.root
          obtain ⟨hdumped, hmem⟩ := dumped_spec fs kernel (root ++ q)
          refine .directory (Walked.lstat_directory hq hdir) (hq.readDirectory hdir) ?_ fun e he => ?_
          · exact names_eq hdumped hsorted fun name => (hmem name).trans h.mem_names.symm
          · have hchild := h.child hsorted he
            rw [List.append_assoc] at hchild
            exact ih e he hchild (hchildren e he) (Walked.child hq.1 hdir)

/-- The archive of a path is that of the tree it holds. -/
theorem FileSystem.Holds.dumpPath (h : fs.Holds root t) (ht : InOrder t)
    (hheight : t.height ≤ narMaxDepth) : dumpPath fs kernel root = ⟨t.nar, .ok ()⟩ := by
  suffices hshows : ∃ accessor, makeFSSourceAccessor fs kernel root = .ok accessor ∧
      accessor.Shows [] t by
    obtain ⟨accessor, hmake, hshows⟩ := hshows
    simp [Host.dumpPath, hmake, SourceAccessor.query, hshows.dumpPath hheight]
  cases t with
  | regular executable contents =>
      obtain ⟨i, hnode, hinode⟩ := FileSystem.leaf_of_label h.root (by simp [treeLabel])
      obtain ⟨hkind, hmode⟩ := Inode.kind_of_label_regular hinode
      refine ⟨_, by simp only [makeFSSourceAccessor, hnode, hkind]; rfl, ?_⟩
      refine .regular ?_ (posixFile_readFile root hkind)
      simp [posixFileSourceAccessor, PosixFileSourceAccessor.maybeLstat,
        sourceAccessorStatFromPosixStat, FileSystem.statInode, hkind, InodeKind.type, hmode]
  | symlink target =>
      obtain ⟨i, hnode, hinode⟩ := FileSystem.leaf_of_label h.root (by simp [treeLabel])
      have hkind := Inode.kind_of_label_symlink hinode
      refine ⟨_, by simp only [makeFSSourceAccessor, hnode, hkind]; rfl, ?_⟩
      have hlstat : (symlinkSourceAccessor target root).maybeLstat [] =
          .ok (some ⟨.tSymlink, false⟩) := rfl
      exact .symlink hlstat rfl
  | directory entries =>
      have hdir := FileSystem.isDir_of_label h.root
      obtain ⟨mode, mtime, hnode⟩ := hdir
      refine ⟨_, by simp only [makeFSSourceAccessor, hnode]; rfl, ?_⟩
      have hroot : fs.Holds (root ++ []) (.directory entries) := by rwa [List.append_nil]
      exact hroot.shows ht ⟨⟨mode, mtime, hnode⟩, fun hne => absurd rfl hne⟩

/-- A dump that reaches its end is one of a tree. -/
theorem Walked.holds_of_dump (levels : Nat) {relPath : CanonPath} {bs : Bytes}
    (hq : Walked fs root q) (hlabel : fs.label (root ++ q) ≠ none)
    (h : (posixDirectorySourceAccessor fs kernel root).dump levels q relPath = ⟨bs, .ok ()⟩) :
    ∃ t, fs.Holds (root ++ q) t ∧ InOrder t ∧ t.height ≤ levels := by
  induction levels generalizing q relPath bs with
  | zero => simp [SourceAccessor.dump] at h
  | succ levels ih =>
      obtain ⟨l, hl⟩ := Option.ne_none_iff_exists'.mp hlabel
      cases l with
      | regular executable contents =>
          exact ⟨.regular executable contents, .leaf hl (by simp [treeLabel]), .regular _ _,
            by simp [Util.Tree.height]⟩
      | symlink target =>
          exact ⟨.symlink target, .leaf hl (by simp [treeLabel]), .symlink _,
            by simp [Util.Tree.height]⟩
      | device type =>
          obtain ⟨err, hdump⟩ := Walked.dump_device kernel hq hl levels relPath
          rw [hdump] at h
          cases h
      | directory =>
          have hdir := FileSystem.isDir_of_label hl
          obtain ⟨hdumped, hmem⟩ := dumped_spec fs kernel (root ++ q)
          rw [Walked.dump_directory hq hdir] at h
          obtain ⟨second, hsecond⟩ := Emit.prepend_eq_ok h
          obtain ⟨items, _, rest, hloop, -, -⟩ := Emit.bind_eq_ok hsecond
          refine FileSystem.Holds.of_children hdir hdumped hmem fun name hname => ?_
          obtain ⟨entry, hentry⟩ := Emit.forM_eq_ok hloop hname
          obtain ⟨bs', hchild⟩ := writeEntry_ok hentry
          have hname' := (hmem name).mp hname
          rw [List.append_assoc] at hname'
          obtain ⟨t, ht⟩ := ih (Walked.child hq.1 hdir) hname' hchild
          rw [← List.append_assoc] at ht
          exact ⟨t, ht⟩

/-- Nodes for which there is an accessor. -/
def Dumped (label : Option Label) : Prop := label ≠ none ∧ ∀ type, label ≠ some (.device type)

/-- There is none for a missing path or a special file. -/
theorem dumpPath_refused (kernel : Kernel) (h : ¬ Dumped (fs.label root)) :
    ∃ err, dumpPath fs kernel root = ⟨[], .error err⟩ := by
  rcases hnode : fs.node root with - | ⟨mode, mtime⟩ | i
  · exact ⟨_, by simp [dumpPath, makeFSSourceAccessor, hnode, SourceAccessor.query]; rfl⟩
  · exact absurd (by simp [Dumped, FileSystem.label, hnode]) h
  · rcases hkind : (fs.inode i).kind with contents | target | (_ | _ | _ | _)
    · exact absurd (by simp [Dumped, FileSystem.label, hnode, Inode.label, hkind]) h
    · exact absurd (by simp [Dumped, FileSystem.label, hnode, Inode.label, hkind]) h
    all_goals
      exact ⟨_, by simp [dumpPath, makeFSSourceAccessor, hnode, hkind, SourceAccessor.query]; rfl⟩

theorem Walked.start (h : fs.IsDir root) : Walked fs root [] := ⟨h, fun hne => absurd rfl hne⟩

theorem dumpPath_directory (h : fs.IsDir root) : dumpPath fs kernel root =
    ((posixDirectorySourceAccessor fs kernel root).dump narMaxDepth [] []).prepend
      (encodeString narVersionMagic1) := by
  obtain ⟨mode, mtime, hnode⟩ := h
  simp only [dumpPath, makeFSSourceAccessor, hnode, SourceAccessor.query, Emit.bind_ok,
    Emit.prepend_nil, SourceAccessor.dumpPath, writeString_eq]

/-- A path that is dumped to the end holds a tree, and what is written is its
archive. -/
theorem holds_of_dumpPath {bs : Bytes} (h : dumpPath fs kernel root = ⟨bs, .ok ()⟩) :
    ∃ t, fs.Holds root t ∧ InOrder t ∧ t.height ≤ narMaxDepth ∧ bs = t.nar := by
  suffices hholds : ∃ t, fs.Holds root t ∧ InOrder t ∧ t.height ≤ narMaxDepth by
    obtain ⟨t, ht, horder, hheight⟩ := hholds
    rw [ht.dumpPath horder hheight] at h
    exact ⟨t, ht, horder, hheight, (congrArg Emit.emitted h).symm⟩
  by_cases hdump : Dumped (fs.label root)
  · obtain ⟨l, hl⟩ := Option.ne_none_iff_exists'.mp hdump.1
    cases l with
    | regular executable contents =>
        exact ⟨.regular executable contents, .leaf hl (by simp [treeLabel]), .regular _ _,
          by simp [Util.Tree.height, narMaxDepth]⟩
    | symlink target =>
        exact ⟨.symlink target, .leaf hl (by simp [treeLabel]), .symlink _,
          by simp [Util.Tree.height, narMaxDepth]⟩
    | device type => exact absurd hl (hdump.2 type)
    | directory =>
        have hdir := FileSystem.isDir_of_label hl
        rw [dumpPath_directory hdir] at h
        obtain ⟨second, hsecond⟩ := Emit.prepend_eq_ok h
        have hlabel : fs.label (root ++ []) ≠ none := by simp [hl]
        obtain ⟨t, ht, hrest⟩ :=
          Walked.holds_of_dump narMaxDepth (Walked.start hdir) hlabel hsecond
        rw [List.append_nil] at ht
        exact ⟨t, ht, hrest⟩
  · obtain ⟨err, herr⟩ := dumpPath_refused kernel hdump
    rw [herr] at h
    cases h

end Dumps

/-! ## Two runs -/

section Alike

open PosixDirectorySourceAccessor

variable {fs₁ fs₂ : FileSystem} {kernel₁ kernel₂ : Kernel} {root₁ root₂ q : Path}

/-- Below directories that agree the dumper writes the same until it ends or fails. -/
theorem dump_alike (h : Agree fs₁ root₁ fs₂ root₂) (levels : Nat) (relPath₁ relPath₂ : CanonPath)
    (hq₁ : Walked fs₁ root₁ q) (hq₂ : Walked fs₂ root₂ q) (hlabel : fs₁.label (root₁ ++ q) ≠ none) :
    Emit.Alike
      ((posixDirectorySourceAccessor fs₁ kernel₁ root₁).dump levels q relPath₁)
      ((posixDirectorySourceAccessor fs₂ kernel₂ root₂).dump levels q relPath₂) := by
  induction levels generalizing q relPath₁ relPath₂ with
  | zero => exact Emit.Alike.failed [] _ _
  | succ levels ih =>
      obtain ⟨l, hl₁⟩ := Option.ne_none_iff_exists'.mp hlabel
      have hl₂ : fs₂.label (root₂ ++ q) = some l := (h q).symm.trans hl₁
      cases l with
      | regular executable contents =>
          rw [(Walked.shows_regular hq₁ hl₁).dump (levels + 1) relPath₁ (by simp [Util.Tree.height]),
            (Walked.shows_regular hq₂ hl₂).dump (levels + 1) relPath₂ (by simp [Util.Tree.height])]
          exact Emit.Alike.refl _
      | symlink target =>
          rw [(Walked.shows_symlink hq₁ hl₁).dump (levels + 1) relPath₁ (by simp [Util.Tree.height]),
            (Walked.shows_symlink hq₂ hl₂).dump (levels + 1) relPath₂ (by simp [Util.Tree.height])]
          exact Emit.Alike.refl _
      | device type =>
          obtain ⟨err₁, hdump₁⟩ := Walked.dump_device kernel₁ hq₁ hl₁ levels relPath₁
          obtain ⟨err₂, hdump₂⟩ := Walked.dump_device kernel₂ hq₂ hl₂ levels relPath₂
          rw [hdump₁, hdump₂]
          exact Emit.Alike.failed _ _ _
      | directory =>
          have hdir₁ := FileSystem.isDir_of_label hl₁
          have hdir₂ := FileSystem.isDir_of_label hl₂
          obtain ⟨hsorted₁, hmem₁⟩ := dumped_spec fs₁ kernel₁ (root₁ ++ q)
          obtain ⟨hsorted₂, hmem₂⟩ := dumped_spec fs₂ kernel₂ (root₂ ++ q)
          -- both maps list the same names in the same order
          have hnames : (dumped (readEntriesFrom fs₁ kernel₁ (root₁ ++ q))).map (·.1) =
              (dumped (readEntriesFrom fs₂ kernel₂ (root₂ ++ q))).map (·.1) := by
            refine names_eq hsorted₁ hsorted₂ fun name => ?_
            rw [hmem₁, hmem₂, List.append_assoc, List.append_assoc, h (q ++ [name])]
          rw [Walked.dump_directory hq₁ hdir₁, Walked.dump_directory hq₂ hdir₂, hnames]
          refine Emit.Alike.prepend _ (Emit.Alike.bind (Emit.Alike.forM fun name hname => ?_)
            fun _ => Emit.Alike.refl _)
          have hname₁ : fs₁.label (root₁ ++ (q ++ [name])) ≠ none := by
            rw [← List.append_assoc]
            exact (hmem₁ name).mp (by rw [hnames]; exact hname)
          have hchild := ih [name] [name] (Walked.child hq₁.1 hdir₁) (Walked.child hq₂.1 hdir₂) hname₁
          simp only [writeEntry, writeString_eq, Emit.bind_ok]
          repeat refine Emit.Alike.prepend _ ?_
          exact hchild.bind fun _ => Emit.Alike.refl _

/-- Paths that agree are dumped alike. -/
theorem dumpPath_alike (h : Agree fs₁ root₁ fs₂ root₂) :
    Emit.Alike (dumpPath fs₁ kernel₁ root₁) (dumpPath fs₂ kernel₂ root₂) := by
  have hroot : fs₁.label root₁ = fs₂.label root₂ := by simpa using h []
  by_cases hdump : Dumped (fs₁.label root₁)
  · obtain ⟨l, hl⟩ := Option.ne_none_iff_exists'.mp hdump.1
    have hleaf : ∀ t, treeLabel t = l → l ≠ .directory → InOrder t → t.height ≤ narMaxDepth →
        Emit.Alike (dumpPath fs₁ kernel₁ root₁) (dumpPath fs₂ kernel₂ root₂) := by
      rintro t rfl hdir horder hheight
      have hl₂ : fs₂.label root₂ = some (treeLabel t) := hroot.symm.trans hl
      rw [(FileSystem.Holds.leaf hl hdir).dumpPath horder hheight,
        (FileSystem.Holds.leaf hl₂ hdir).dumpPath horder hheight]
      exact Emit.Alike.refl _
    cases l with
    | regular executable contents =>
        exact hleaf (.regular executable contents) rfl (by simp) (.regular _ _)
          (by simp [Util.Tree.height, narMaxDepth])
    | symlink target =>
        exact hleaf (.symlink target) rfl (by simp) (.symlink _)
          (by simp [Util.Tree.height, narMaxDepth])
    | device type => exact absurd hl (hdump.2 type)
    | directory =>
        have hdir₁ := FileSystem.isDir_of_label hl
        have hdir₂ := FileSystem.isDir_of_label (hroot.symm.trans hl)
        rw [dumpPath_directory hdir₁, dumpPath_directory hdir₂]
        exact (dump_alike h narMaxDepth [] [] (Walked.start hdir₁) (Walked.start hdir₂)
          (by simp [hl])).prepend _
  · obtain ⟨err₁, herr₁⟩ := dumpPath_refused kernel₁ hdump
    rw [hroot] at hdump
    obtain ⟨err₂, herr₂⟩ := dumpPath_refused kernel₂ hdump
    rw [herr₁, herr₂]
    exact Emit.Alike.failed [] err₁ err₂

/-- Paths dumped to one archive agree. -/
theorem agree_of_dumpPath {bs : Bytes} (hlimits₁ : fs₁.WithinLimits) (hlimits₂ : fs₂.WithinLimits)
    (h₁ : dumpPath fs₁ kernel₁ root₁ = ⟨bs, .ok ()⟩)
    (h₂ : dumpPath fs₂ kernel₂ root₂ = ⟨bs, .ok ()⟩) : Agree fs₁ root₁ fs₂ root₂ := by
  obtain ⟨t, ht, horder, hheight, hbs⟩ := holds_of_dumpPath h₁
  obtain ⟨u, hu, horder', hheight', hbs'⟩ := holds_of_dumpPath h₂
  have hsame : t = u := nar_injective (ht.representable horder hlimits₁)
    (hu.representable horder' hlimits₂) hheight hheight' (hbs.symm.trans hbs')
  exact ht.agree (hsame ▸ hu)

end Alike

/-! ## Trees that can be archived -/

/-- The nodes at and below `p` are those of a tree that the dumper accepts. -/
structure FileSystem.Archives (fs : FileSystem) (p : Path) (t : Tree) : Prop where
  holds : fs.Holds p t
  inOrder : InOrder t
  height : t.height ≤ narMaxDepth

theorem FileSystem.Archives.dumpPath {t : Tree} (h : fs.Archives root t) :
    Host.dumpPath fs kernel root = ⟨t.nar, .ok ()⟩ := h.holds.dumpPath h.inOrder h.height

theorem FileSystem.Archives.node_ne_none {t : Tree} (h : fs.Archives root t) :
    fs.node root ≠ none :=
  FileSystem.node_of_label (by simp [h.holds.root])

theorem FileSystem.Archives.nar_unique {t u : Tree} (h : fs.Archives root t)
    (h' : fs.Archives root u) : t.nar = u.nar := by
  have hdump : Host.dumpPath fs default root = ⟨t.nar, .ok ()⟩ := h.dumpPath
  rw [h'.dumpPath] at hdump
  exact (congrArg Emit.emitted hdump).symm

/-- What lies below a path decides what it can be archived as. -/
theorem Keeps.archives_iff {changed touched : Set Path} {fs' : FileSystem} {t : Tree}
    (h : Keeps changed touched fs fs')
    (hout : ∀ q, root <+: q → q ∉ changed ∧ q ∉ touched) :
    fs'.Archives root t ↔ fs.Archives root t := by
  have hlabel : ∀ q, fs'.label (root ++ q) = fs.label (root ++ q) := by
    intro q
    obtain ⟨hchanged, htouched⟩ := hout (root ++ q) (List.prefix_append _ _)
    exact h.label hchanged htouched
  constructor
  · exact fun ht => ⟨fun q => (hlabel q).symm.trans (ht.holds q), ht.inOrder, ht.height⟩
  · exact fun ht => ⟨fun q => (hlabel q).trans (ht.holds q), ht.inOrder, ht.height⟩

/-- The dumper writes the archive of the tree, or throws if there is none. -/
theorem dumpPath_cases (fs : FileSystem) (kernel : Kernel) (root : Path) :
    (∃ t, fs.Archives root t ∧ dumpPath fs kernel root = ⟨t.nar, .ok ()⟩) ∨
    ((∀ t, ¬ fs.Archives root t) ∧ ∃ bs e, dumpPath fs kernel root = ⟨bs, .error e⟩) := by
  rcases hdump : dumpPath fs kernel root with ⟨bs, e | _⟩
  · refine Or.inr ⟨fun t ht => ?_, bs, e, rfl⟩
    rw [ht.dumpPath] at hdump
    cases hdump
  · obtain ⟨t, hholds, horder, hheight, rfl⟩ := holds_of_dumpPath hdump
    exact Or.inl ⟨t, ⟨hholds, horder, hheight⟩, rfl⟩

/-- Files and symlinks can be archived. -/
theorem archives_leaf {i : Nat} (hnode : fs.node root = some (.leaf i))
    (hkind : ∀ type, (fs.inode i).kind ≠ .special type) : ∃ t, fs.Archives root t := by
  have hlabel : fs.label root = (fs.inode i).label := by rw [FileSystem.label, hnode]
  rcases hinode : (fs.inode i).kind with contents | target | type
  · rw [Inode.label, hinode] at hlabel
    exact ⟨.regular _ contents, .leaf hlabel (by simp [treeLabel]), .regular _ _,
      by simp [Util.Tree.height, narMaxDepth]⟩
  · rw [Inode.label, hinode] at hlabel
    exact ⟨.symlink target, .leaf hlabel (by simp [treeLabel]), .symlink _,
      by simp [Util.Tree.height, narMaxDepth]⟩
  · exact absurd hinode (hkind type)

end Host
end Archinix
