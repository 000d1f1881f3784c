import Archinix.Foundation.Contract
import Archinix.Host.DumpPath
import Archinix.Store.OptimiseRuns

/-!
# What a deduplication asks for

In a canonical store a file is only ever replaced by a link to the entry of the farm under its own
hash, and the time of every directory that was changed is restored.  A thread holds its temporary
link, and the directories whose time it has still to restore.
-/

namespace Archinix

namespace Host

open Util

/-- The tree of a file or symlink. -/
def Inode.tree (inode : Inode) : Option Tree :=
  match inode.kind with
  | .regular contents => some (.regular (Mode.isExecutable inode.mode) contents)
  | .symlink target => some (.symlink target)
  | .special _ => none

theorem dumpPath_leaf {fs : FileSystem} {kernel : Kernel} {p : Path} {i : Nat} {t : Tree}
    (hnode : fs.node p = some (.leaf i)) (ht : (fs.inode i).tree = some t) :
    dumpPath fs kernel p = ⟨t.nar, .ok ()⟩ := by
  have hlabel : fs.label p = (fs.inode i).label := by rw [FileSystem.label, hnode]
  have harchives : fs.Archives p t := by
    rcases hkind : (fs.inode i).kind with contents | target | type
    · rw [Inode.label, hkind] at hlabel
      rw [Inode.tree, hkind] at ht
      obtain rfl := Option.some.inj ht
      exact ⟨.leaf hlabel (by simp [treeLabel]), .regular _ _, by simp [Util.Tree.height, narMaxDepth]⟩
    · rw [Inode.label, hkind] at hlabel
      rw [Inode.tree, hkind] at ht
      obtain rfl := Option.some.inj ht
      exact ⟨.leaf hlabel (by simp [treeLabel]), .symlink _, by simp [Util.Tree.height, narMaxDepth]⟩
    · rw [Inode.tree, hkind] at ht
      cases ht
  exact harchives.dumpPath

end Host

namespace Util

theorem CanonPath.abs_append {root rest : CanonPath} (hroot : root ≠ []) (hrest : rest ≠ []) :
    CanonPath.abs (root ++ rest) = CanonPath.abs root ++ CanonPath.abs rest := by
  cases root with
  | nil => exact absurd rfl hroot
  | cons name root =>
      cases rest with
      | nil => exact absurd rfl hrest
      | cons name' rest => simp [CanonPath.abs]

end Util

namespace Store
namespace Optimising

open Foundation Util Host

/-- A file, symlink or device that `canonicaliseTimestampAndPermissions` leaves alone. -/
structure Canonical (inode : Inode) : Prop where
  mtime : inode.mtime = mtimeStore
  regular : ∀ contents, inode.kind = .regular contents →
    inode.mode = if inode.mode.isExecutable then 0o555 else 0o444
  symlink : ∀ target, inode.kind = .symlink target → inode.mode = 0o777

theorem Canonical.eq_of_tree {x y : Inode} {t : Tree} (hx : Canonical x) (hy : Canonical y)
    (htx : x.tree = some t) (hty : y.tree = some t) : x = y := by
  obtain ⟨kind, mode, mtime⟩ := x
  obtain ⟨kind', mode', mtime'⟩ := y
  obtain rfl : mtime = mtime' := hx.mtime.trans hy.mtime.symm
  have hregular := hx.regular
  have hregular' := hy.regular
  have hsymlink := hx.symlink
  have hsymlink' := hy.symlink
  simp only at hregular hregular' hsymlink hsymlink'
  rcases kind with contents | target | type
  · rcases kind' with contents' | target' | type'
    · simp only [Inode.tree] at htx hty
      rw [← hty] at htx
      obtain ⟨hexecutable, rfl⟩ := Tree.regular.inj (Option.some.inj htx)
      rw [hregular contents rfl, hregular' contents rfl, hexecutable]
    · simp only [Inode.tree] at htx hty
      rw [← hty] at htx
      cases htx
    · cases hty
  · rcases kind' with contents' | target' | type'
    · simp only [Inode.tree] at htx hty
      rw [← hty] at htx
      cases htx
    · simp only [Inode.tree] at htx hty
      rw [← hty] at htx
      obtain rfl := Tree.symlink.inj (Option.some.inj htx)
      rw [hsymlink target rfl, hsymlink' target rfl]
    · cases hty
  · cases htx

/-! ## Stores to begin with -/

namespace Runs

variable [Sha256] {ι : Type} (R : Runs ι)

/-- The name of the node's entry in the farm. -/
structure Names (name : Name) (inode : Inode) : Prop where
  canonical : Canonical inode
  tree : ∃ t, inode.tree = some t ∧ name = (hashString t.nar).nix32

/-- The path leads to a file or symlink that may be linked, and this is its name in the farm. -/
structure Named (p : Path) (name : Name) : Prop where
  inStore : R.InStore p
  tree : ∃ inode t, R.fs.content p = some (.inr inode) ∧ inode.tree = some t ∧
    inode.kind ≠ .regular [] ∧ name = (hashString t.nar).nix32

/-- What the hashes say of the nodes below a path is right. -/
def Truthful (hashes : FileHashes) (path : Path) : Prop :=
  ∀ rest inode t st hash, R.fs.content (path ++ rest) = some (.inr inode) → inode.tree = some t →
    hashes.captured (path ++ rest) st = some hash → hash = hashString t.nar

/-- The store is canonical, so is the farm, entries are named by their hashes, and captured hashes
are right. -/
structure Sound : Prop where
  directory : ∀ p mode mtime, R.InStore p → R.fs.node p = some (.directory mode mtime) →
    mode = 0o755 ∧ mtime = mtimeStore
  leaf : ∀ p i, R.InStore p → R.fs.node p = some (.leaf i) → Canonical (R.fs.inode i)
  farm : ∀ name i, R.fs.node (R.farm name) = some (.leaf i) → Names name (R.fs.inode i)
  collisionFree : ∀ i j t u, i < R.fs.nextIno → j < R.fs.nextIno → (R.fs.inode i).tree = some t →
    (R.fs.inode j).tree = some u → hashString t.nar = hashString u.nar → t = u
  captured : ∀ i files path, R.job i = .optimisePath (some files) path → ∀ rest inode t hash,
    R.fs.content (R.config.toRealPath path ++ rest) = some (.inr inode) → inode.tree = some t →
      files (CanonPath.abs rest) = some hash → hash = hashString t.nar
  inStore : ∀ i path, R.job i = .autoOptimisePath path → R.InStore path

/-- Nothing keeps the time of a directory from being restored. -/
structure Stamps : Prop where
  lstat : ∀ p e, ¬ R.env.faults (.lstat p) e
  utimens : ∀ p e, ¬ R.env.faults (.utimens p mtimeStore) e

variable {R} {p path : Path} {name : Name}

theorem Truthful.append {hashes : FileHashes} (h : R.Truthful hashes path) (more : Path) :
    R.Truthful hashes (path ++ more) := by
  intro rest inode t st hash hcontent ht hhash
  rw [List.append_assoc] at hcontent hhash
  exact h _ inode t st hash hcontent ht hhash

/-- The keys of captured hashes are the paths below the root. -/
theorem Sound.truthful (hR : R.Sound) {i : ι} {files : Bytes → Option Hash} {path : StorePath}
    (hjob : R.job i = .optimisePath (some files) path) :
    R.Truthful ⟨files, (CanonPath.abs (R.config.toRealPath path)).length⟩
      (R.config.toRealPath path) := by
  intro rest inode t st hash hcontent ht hhash
  refine hR.captured i files path hjob rest inode t hash hcontent ht ?_
  unfold FileHashes.captured at hhash
  split at hhash
  · by_cases hrest : rest = []
    · subst hrest
      simpa [CanonPath.abs] using hhash
    · have hroot : R.config.toRealPath path ≠ [] := by simp [LocalStoreConfig.toRealPath]
      have habs : CanonPath.abs rest ≠ [] := by
        cases rest with
        | nil => exact absurd rfl hrest
        | cons name rest => simp [CanonPath.abs, str]
      rw [CanonPath.abs_append hroot hrest] at hhash
      simpa [habs] using hhash
  · cases hhash

end Runs

/-! ## What a thread holds -/

/-- The temporary link of a thread with its name in the farm, and the directories whose time it has
still to restore. -/
structure Held where
  temp : Option (Path × Name)
  dirty : Set Path

def Held.idle : Held := ⟨none, ∅⟩

/-- No temporary link, and no more than these directories. -/
def Held.Within (dirs : Set Path) (held : Held) : Prop := held.temp = none ∧ held.dirty ⊆ dirs

theorem Held.Within.mono {dirs dirs' : Set Path} {held : Held} (h : held.Within dirs)
    (hdirs : dirs ⊆ dirs') : held.Within dirs' := ⟨h.1, h.2.trans hdirs⟩

theorem Held.idle_within (dirs : Set Path) : Held.idle.Within dirs := ⟨rfl, Set.empty_subset dirs⟩

theorem Held.Within.eq_idle {held : Held} (h : held.Within ∅) : held = .idle := by
  obtain ⟨temp, dirty⟩ := held
  obtain ⟨rfl, hdirty⟩ := h
  obtain rfl : dirty = ∅ := Set.subset_empty_iff.mp hdirty
  rfl

theorem meets_ask {C : Contract Requests Held} {deep : Prop} {α : Type} {r : Request} {held : Held}
    {f : r.Ret → Except Exception α} {Q : Except Exception α → Held → Prop} (hpre : C.pre r held)
    (hpost : ∀ x held', C.post r held x held' → Q (f x) held') :
    (ask r f).Meets C deep Q held := ⟨hpre, hpost⟩

namespace Runs

variable {ι : Type} (R : Runs ι)

/-- What `lstat` shows of a node. -/
def Shows (p : Path) (st : FileStat) : Prop :=
  (R.fs.content p = some (.inl st.mode) ∧ st.type = .tDirectory) ∨
  (∃ inode, R.fs.content p = some (.inr inode) ∧ st.type = inode.kind.type ∧ st.mode = inode.mode ∧
    st.size = inode.kind.size ∧ st.mtime = inode.mtime)

/-- The directory, if it is in the store. -/
def stamped (dir : Path) : Set Path := {q | q = dir ∧ R.InStore q}

/-- A directory in the store. -/
structure Directory (p : Path) : Prop where
  inStore : R.InStore p
  content : ∃ mode, R.fs.content p = some (.inl mode)

/-- The directories that are to be restored, and one more if it is toggled. -/
def marked (dir : Path) (D : Set Path) (toggled : Bool) : Set Path :=
  if toggled then D ∪ R.stamped dir else D

variable {R} {path : Path}

theorem subset_marked (dir : Path) (D : Set Path) (toggled : Bool) :
    D ⊆ R.marked dir D toggled := by
  unfold marked
  split
  · exact Set.subset_union_left
  · exact subset_rfl

theorem marked_union_parent (dir : Path) (D : Set Path) (toggled : Bool) :
    R.marked dir D toggled ∪ R.stamped dir ⊆ R.marked dir D true := by
  cases toggled with
  | false => exact subset_rfl
  | true => exact Set.union_subset subset_rfl Set.subset_union_right

theorem directory_parentDir (hin : R.InStore (parentDir path)) (hne : path ≠ [])
    (hpath : R.fs.content path ≠ none) : R.Directory (parentDir path) := by
  refine ⟨hin, ?_⟩
  rw [← FileSystem.isDir_iff_content]
  exact R.fs.parent_dir path hne fun hnone => hpath (FileSystem.content_eq_none.mpr hnone)

end Runs

namespace Runs

variable [Sha256] {ι : Type} (R : Runs ι)

/-- What a thread may ask for, and what becomes of what it holds. -/
def contract : Contract Requests Held where
  pre
    | .sys (.lstat _), _ => True
    | .sys (.readdir _), _ => True
    | .sys (.link src dst), held =>
        (∃ name, R.Named src name ∧ dst = R.farm name) ∨
        (held.temp = none ∧ R.IsTemp dst ∧ ∃ p name, R.Named p name ∧ src = R.farm name)
    | .sys (.rename src dst), held => ∃ name, held.temp = some (src, name) ∧ R.Named dst name
    | .sys (.unlink p), held => R.IsFarm p ∨ ∃ name, held.temp = some (p, name)
    | .sys (.utimens p mtime), _ => R.InStore p ∧ (∃ mode, R.fs.content p = some (.inl mode)) ∧
        mtime = mtimeStore
    | .sys _, _ => False
    | _, _ => True
  post
    | .sys (.lstat p), held, x, held' =>
        (R.InStore p → ∀ st, x = .ok st → R.Shows p st) ∧ held'.temp = held.temp ∧
        held'.dirty ⊆ held.dirty ∧ (p ∈ held'.dirty → ∃ st, x = .ok st ∧ st.mtime ≠ mtimeStore)
    | .sys (.link src dst), held, x, held' =>
        (R.IsFarm dst → held' = held) ∧
        (R.IsTemp dst → (∀ e, x = .error e → held' = held) ∧
          (x = .ok () → ∀ name, src = R.farm name → held' = ⟨some (dst, name), held.dirty⟩))
    | .sys (.rename _ dst), held, x, held' =>
        (x = .ok () → held' = ⟨none, held.dirty ∪ R.stamped (parentDir dst)⟩) ∧ (∀ e, x = .error e → held' = held)
    | .sys (.unlink p), held, _, held' =>
        (R.IsFarm p → held' = held) ∧
        (∀ name, held.temp = some (p, name) → held' = ⟨none, held.dirty⟩)
    | .sys (.utimens p _), held, _, held' => held' = ⟨held.temp, held.dirty \ {p}⟩
    | .tempName, held, x, held' => tempPrefix <+: x ∧ held' = held
    | .dumpPath p, held, x, held' =>
        held' = held ∧ ∀ inode t, R.InStore p → R.fs.content p = some (.inr inode) →
          inode.tree = some t → x.2 = .ok () → x.1 = t.nar
    | _, held, _, held' => held' = held
  fork task held held' held'' :=
    held' = held ∧ held'' = .idle ∧ R.InStore task.path ∧
      ∀ hashes, task.fileHashes = some hashes → R.Truthful hashes task.path
  join held held' := held' = held

/-! ## The runs keep to it -/

section Programs

variable {R} {D : Set Path} {held : Held} {p path linkPath : Path} {name : Name}
  {st : FileStat} {hashes : Option FileHashes}

/-- A request that changes nothing. -/
theorem meets_idle {α : Type} {r : Request} {f : r.Ret → Except Exception α}
    {Q : Except Exception α → Held → Prop} (hpre : R.contract.pre r held)
    (hsame : ∀ x held', R.contract.post r held x held' → held' = held)
    (hQ : ∀ x, Q (f x) held) : (ask r f).Meets R.contract True Q held := by
  refine meets_ask hpre fun x held' hpost => ?_
  rw [hsame x held' hpost]
  exact hQ x

theorem meets_checkInterrupt (h : held.Within D) :
    checkInterrupt.Meets R.contract True (fun _ => Held.Within D) held :=
  meets_idle trivial (fun _ _ hpost => hpost) fun _ => h

/-- `lstat` shows the node, and that its time is the one of the store unless it is another. -/
theorem meets_lstat (h : held.Within D) : (lstat p).Meets R.contract True
    (fun e held => held.Within D ∧ (R.InStore p → ∀ st, e = .ok st → R.Shows p st) ∧
      (p ∈ held.dirty → ∃ st, e = .ok st ∧ st.mtime ≠ mtimeStore)) held := by
  refine meets_ask trivial fun x held' hpost => ?_
  obtain ⟨hshows, htemp, hdirty, hclean⟩ := hpost
  refine ⟨⟨htemp.trans h.1, hdirty.trans h.2⟩, fun hin st hst => ?_, fun hp => ?_⟩
  · cases x with
    | ok v => exact hshows hin st (by rw [Except.ok.inj hst])
    | error e => cases hst
  · obtain ⟨st, rfl, hst⟩ := hclean hp
    exact ⟨st, rfl, hst⟩

theorem meets_maybeLstat (h : held.Within D) :
    (maybeLstat p).Meets R.contract True (fun _ => Held.Within D) held := by
  refine meets_ask trivial fun x held' hpost => ?_
  exact ⟨hpost.2.1.trans h.1, hpost.2.2.1.trans h.2⟩

theorem meets_unlinkIfExists (h : held.Within D) (hp : R.IsFarm p) :
    (unlinkIfExists p).Meets R.contract True (fun _ => Held.Within D) held :=
  meets_idle (Or.inl hp) (fun _ _ hpost => hpost.1 hp) fun _ => h

theorem Shows.directory (hR : R.Sound) (hp : R.Directory p) (h : R.Shows p st) :
    st.type = .tDirectory ∧ st.mode = 0o755 := by
  obtain ⟨hin, mode, hcontent⟩ := hp
  rcases h with ⟨hst, htype⟩ | ⟨inode, hst, -⟩
  · obtain ⟨mtime, hnode⟩ := FileSystem.directory_of_content hst
    exact ⟨htype, (hR.directory p st.mode mtime hin hnode).1⟩
  · rw [hst] at hcontent
    cases hcontent

theorem meets_makeWritable (hR : R.Sound) (hp : R.Directory p) (h : held.Within D) :
    (makeWritable p).Meets R.contract True (fun _ => Held.Within D) held := by
  refine Prog.meets_bind.mpr ((meets_lstat h).mono ?_)
  rintro (e | st) held' ⟨hwithin, hshows, -⟩
  · exact hwithin
  · obtain ⟨-, hmode⟩ := (hshows hp.inStore st rfl).directory hR hp
    have hwritable : ¬ st.mode &&& ownerWrite = 0 := by
      rw [hmode]
      decide
    refine Prog.continues_ok.mpr ?_
    rw [if_neg hwritable]
    exact hwithin

/-- The directory is clean afterwards. -/
theorem meets_canonicalise (hR : R.Sound) (hp : R.Directory p) (h : held.Within (D ∪ {p})) :
    (canonicaliseTimestampAndPermissions p).Meets R.contract True (fun _ => Held.Within D) held := by
  have hclean : ∀ {held : Held}, held.Within (D ∪ {p}) → p ∉ held.dirty → held.Within D := by
    rintro held ⟨htemp, hdirty⟩ hnot
    refine ⟨htemp, fun q hq => (hdirty hq).resolve_right ?_⟩
    rintro rfl
    exact hnot hq
  refine Prog.meets_bind.mpr ((meets_lstat h).mono ?_)
  rintro (e | st) held' ⟨hwithin, hshows, htime⟩
  · refine hclean hwithin fun hmem => ?_
    obtain ⟨st, ⟨⟩, -⟩ := htime hmem
  · obtain ⟨htype, hmode⟩ := (hshows hp.inStore st rfl).directory hR hp
    have hcanonical : ¬ (st.type ≠ .tSymlink ∧ st.mode ≠ canonicalMode st) := by
      rintro ⟨-, hne⟩
      exact hne (by rw [canonicalMode, if_pos htype, hmode])
    refine Prog.continues_ok.mpr ?_
    rw [if_neg hcanonical]
    by_cases hmtime : st.mtime = mtimeStore
    · rw [if_neg (not_not_intro hmtime)]
      refine hclean hwithin fun hmem => ?_
      obtain ⟨st', hst', hne⟩ := htime hmem
      rw [← Except.ok.inj hst'] at hne
      exact hne hmtime
    · rw [if_pos hmtime]
      refine meets_ask ⟨hp.inStore, hp.content, rfl⟩ ?_
      rintro x held'' rfl
      exact hclean ⟨hwithin.1, Set.sdiff_subset.trans hwithin.2⟩ fun hmem => hmem.2 rfl

/-- The hash of a file or symlink, captured or computed. -/
theorem meets_hashFile {inode : Inode} {tree : Tree} (hin : R.InStore path)
    (hcontent : R.fs.content path = some (.inr inode)) (htree : inode.tree = some tree)
    (hhashes : ∀ captured, hashes = some captured → R.Truthful captured path) (h : held.Within D) :
    (hashFile hashes path st).Meets R.contract True
      (fun e held => held.Within D ∧ ∀ hash, e = .ok hash → hash = hashString tree.nar) held := by
  unfold hashFile
  split
  · rename_i hash hhash
    refine ⟨h, ?_⟩
    rintro _ ⟨⟩
    obtain ⟨captured, rfl, hcaptured⟩ := Option.bind_eq_some_iff.mp hhash
    refine hhashes captured rfl [] inode tree st hash ?_ htree ?_
    · rwa [List.append_nil]
    · rwa [List.append_nil]
  · refine meets_ask trivial ?_
    rintro ⟨bs, ended⟩ held' ⟨rfl, hdump⟩
    refine ⟨h, fun hash hhash => ?_⟩
    cases ended with
    | ok =>
        cases hhash
        obtain rfl : bs = tree.nar := hdump inode tree hin hcontent htree rfl
        rfl
    | error e => cases hhash

theorem meets_uncorruptedEntry (hp : R.IsFarm p) (h : held.Within D) :
    (uncorruptedEntry p st).Meets R.contract True (fun _ => Held.Within D) held := by
  refine Prog.meets_bind.mpr ((meets_maybeLstat h).mono ?_)
  rintro (e | _ | entry) held' hwithin
  · exact hwithin
  · exact hwithin
  · refine Prog.continues_ok.mpr ?_
    simp only
    split
    · refine Prog.meets_bind.mpr ((meets_unlinkIfExists hwithin hp).mono ?_)
      rintro (e | _) held'' hwithin'
      · exact hwithin'
      · exact hwithin'
    · exact hwithin

theorem meets_createEntry (hpath : R.Named path name) (h : held.Within D) :
    (createEntry path (R.farm name) st).Meets R.contract True (fun _ => Held.Within D) held := by
  have hfarm : R.IsFarm (R.farm name) := ⟨name, rfl⟩
  refine Prog.meets_bind.mpr (meets_idle (Or.inl ⟨name, hpath, rfl⟩)
    (fun _ _ hpost => hpost.1 hfarm) ?_)
  rintro (e | _)
  · refine Prog.continues_ok.mpr ?_
    simp only
    split
    · exact meets_maybeLstat h
    · split
      · exact h
      · exact h
  · refine Prog.continues_ok.mpr (Prog.meets_bind.mpr ?_)
    exact meets_idle trivial (fun _ _ hpost => hpost) fun _ => h

theorem meets_farmEntry (hpath : R.Named path name) (h : held.Within D) :
    (farmEntry path (R.farm name) st).Meets R.contract True (fun _ => Held.Within D) held := by
  refine Prog.meets_bind.mpr ((meets_uncorruptedEntry ⟨name, rfl⟩ h).mono ?_)
  rintro (e | _ | entry) held' hwithin
  · exact hwithin
  · exact meets_createEntry hpath hwithin
  · exact hwithin

/-- The entry to replace a file with bears the name of the file. -/
theorem meets_otherEntry (hin : R.InStore path) {inode : Inode} {tree : Tree}
    (hcontent : R.fs.content path = some (.inr inode)) (htree : inode.tree = some tree)
    (hnonempty : inode.kind ≠ .regular [])
    (hhashes : ∀ captured, hashes = some captured → R.Truthful captured path) (h : held.Within D) :
    (otherEntry R.config hashes path st).Meets R.contract True (fun e held => held.Within D ∧
      ∀ linkPath, e = .ok (some linkPath) → ∃ name, R.Named path name ∧ linkPath = R.farm name)
      held := by
  have hnamed : R.Named path (hashString tree.nar).nix32 :=
    ⟨hin, inode, tree, hcontent, htree, hnonempty, rfl⟩
  refine Prog.meets_bind.mpr ((meets_hashFile hin hcontent htree hhashes h).mono ?_)
  rintro (e | hash) held' ⟨hwithin, hhash⟩
  · exact ⟨hwithin, fun _ heq => by cases heq⟩
  obtain rfl := hhash hash rfl
  refine Prog.continues_ok.mpr (Prog.meets_bind.mpr ((meets_farmEntry hnamed hwithin).mono ?_))
  rintro (e | _ | entry) held'' hwithin'
  · exact ⟨hwithin', fun _ heq => by cases heq⟩
  · exact ⟨hwithin', fun _ heq => by cases heq⟩
  refine Prog.continues_ok.mpr ?_
  simp only
  split
  · exact ⟨hwithin', fun _ heq => by cases heq⟩
  · refine ⟨hwithin', ?_⟩
    rintro _ ⟨⟩
    exact ⟨_, hnamed, rfl⟩

theorem meets_findLink (hin : R.InStore path) (hshows : R.Shows path st)
    (hfile : st.type ≠ .tDirectory)
    (hhashes : ∀ captured, hashes = some captured → R.Truthful captured path) (h : held.Within D) :
    (findLink R.config hashes path st).Meets R.contract True (fun e held => held.Within D ∧
      ∀ linkPath, e = .ok (some linkPath) → ∃ name, R.Named path name ∧ linkPath = R.farm name)
      held := by
  have hnone : held.Within D ∧ ∀ linkPath, (Except.ok none : Except Exception (Option Path)) =
      .ok (some linkPath) → ∃ name, R.Named path name ∧ linkPath = R.farm name :=
    ⟨h, fun _ heq => by cases heq⟩
  unfold findLink
  split
  · exact hnone
  rename_i hkind
  split
  · exact hnone
  split
  · exact hnone
  rename_i hempty
  obtain ⟨-, hdir⟩ | ⟨inode, hcontent, htype, -, hsize, -⟩ := hshows
  · exact absurd hdir hfile
  obtain ⟨tree, htree⟩ : ∃ tree, inode.tree = some tree := by
    rw [htype] at hkind
    rcases inode with ⟨contents | target | type, mode, mtime⟩
    · exact ⟨_, rfl⟩
    · exact ⟨_, rfl⟩
    · refine absurd ⟨?_, ?_⟩ hkind
      · cases type <;> simp [InodeKind.type, SpecialType.type]
      · cases type <;> simp [InodeKind.type, SpecialType.type]
  have hnonempty : inode.kind ≠ .regular [] := by
    intro hk
    rw [htype, hsize, hk] at hempty
    exact hempty ⟨rfl, rfl⟩
  have hknown : ∀ known, (if known = true then (pure none : Action (Option Path)) else
      otherEntry R.config hashes path st).Meets R.contract True (fun e held => held.Within D ∧
        ∀ linkPath, e = .ok (some linkPath) → ∃ name, R.Named path name ∧ linkPath = R.farm name)
      held := by
    intro known
    split
    · exact hnone
    · exact meets_otherEntry hin hcontent htree hnonempty hhashes h
  split
  · refine Prog.meets_bind.mpr (meets_idle trivial (fun _ _ hpost => hpost) fun known => ?_)
    exact hknown known
  · exact hknown false

/-- The directory of the file is to be restored afterwards. -/
theorem meets_replaceFile (hpath : R.Named path name) (h : held.Within D) :
    (replaceFile R.config path (R.farm name) st).Meets R.contract True
      (fun _ => Held.Within (D ∪ R.stamped (parentDir path))) held := by
  have hless : D ⊆ D ∪ R.stamped (parentDir path) := Set.subset_union_left
  refine Prog.meets_bind.mpr (meets_ask trivial ?_)
  rintro temp _ ⟨hstarts, rfl⟩
  have htemp : R.IsTemp (R.config.realStoreDir ++ [temp]) := ⟨temp, hstarts, rfl⟩
  refine Prog.continues_ok.mpr (Prog.meets_bind.mpr ?_)
  refine meets_ask (Or.inr ⟨h.1, htemp, path, name, hpath, rfl⟩) ?_
  rintro (e | _) held' ⟨-, hpost⟩
  · obtain rfl := (hpost htemp).1 e rfl
    refine Prog.continues_ok.mpr ?_
    simp only
    split
    · exact h.mono hless
    · exact h.mono hless
  · obtain rfl := (hpost htemp).2 rfl name rfl
    refine Prog.continues_ok.mpr (Prog.meets_bind.mpr ?_)
    refine meets_ask ⟨name, rfl, hpath⟩ ?_
    rintro (e | _) held' ⟨hok, herror⟩
    · obtain rfl := herror e rfl
      refine Prog.continues_ok.mpr (Prog.meets_bind.mpr ?_)
      refine meets_ask (Or.inr ⟨name, rfl⟩) ?_
      rintro x held' ⟨-, hgone⟩
      obtain rfl := hgone name rfl
      refine Prog.continues_ok.mpr ?_
      simp only
      split
      · exact ⟨rfl, h.2.trans hless⟩
      · exact ⟨rfl, h.2.trans hless⟩
    · obtain rfl := hok rfl
      refine Prog.continues_ok.mpr ?_
      refine meets_ask trivial ?_
      rintro x held' rfl
      exact ⟨rfl, Set.union_subset_union_left _ h.2⟩

/-- A walk has ended, and what it has left to its caller is marked. -/
def Ended (R : Runs ι) (path : Path) (D : Set Path) (parentToggled : Option Bool)
    (e : Except Exception Ending) (held : Held) : Prop :=
  ∃ ended toggled, e = .ok (ended, toggled) ∧ held.Within (R.marked (parentDir path) D toggled) ∧
    (parentToggled = none → toggled = false)

theorem Named.content_ne_none (h : R.Named path name) : R.fs.content path ≠ none := by
  obtain ⟨inode, tree, hcontent, -⟩ := h.tree
  simp [hcontent]

theorem meets_optimiseFile (hR : R.Sound) (hin : R.InStore path) (hshows : R.Shows path st)
    (hfile : st.type ≠ .tDirectory)
    (hhashes : ∀ captured, hashes = some captured → R.Truthful captured path)
    (parentToggled : Option Bool) (hparent : parentToggled ≠ none → R.InStore (parentDir path))
    (h : held.Within (R.marked (parentDir path) D (parentToggled.getD false))) :
    (optimiseFile R.config hashes path st parentToggled).Meets R.contract True
      (R.Ended path D parentToggled) held := by
  have hgiven : ∀ ended (held : Held), held.Within (R.marked (parentDir path) D (parentToggled.getD false)) →
      R.Ended path D parentToggled (.ok (ended, parentToggled.getD false)) held := fun ended _ hheld =>
    ⟨ended, _, rfl, hheld, by rintro rfl; rfl⟩
  refine Prog.meets_bind.mpr (Prog.meets_attempt.mpr ?_)
  refine (meets_findLink hin hshows hfile hhashes h).mono ?_
  rintro (e | _ | linkPath) held' ⟨hwithin, hlink⟩
  · exact hgiven _ held' hwithin
  · exact hgiven _ held' hwithin
  obtain ⟨name, hpath, rfl⟩ := hlink linkPath rfl
  refine Prog.continues_ok.mpr ?_
  have hdirectory : R.InStore (parentDir path) → R.Directory (parentDir path) := fun hdir =>
    directory_parentDir hdir hin.ne_nil hpath.content_ne_none
  have hreplace : ∀ {held : Held}, held.Within (R.marked (parentDir path) D (parentToggled.getD false)) →
      (replaceFile R.config path (R.farm name) st).Meets R.contract True
        (fun _ => Held.Within (R.marked (parentDir path) D true)) held := fun hheld =>
    (meets_replaceFile hpath hheld).mono fun _ _ hw => hw.mono (marked_union_parent _ _ _)
  rcases parentToggled with - | toggled
  · simp only
    split
    · rename_i hne
      have hdir := hdirectory (hin.parentDir hne)
      refine Prog.meets_bind.mpr (Prog.meets_attempt.mpr ((meets_makeWritable hR hdir hwithin).mono ?_))
      rintro (e | _) held' hheld
      · exact ⟨.error e, false, rfl, hheld, fun _ => rfl⟩
      refine Prog.continues_ok.mpr (Prog.meets_bind.mpr (Prog.meets_attempt.mpr ?_))
      refine (hreplace hheld).mono fun e held' hheld => ?_
      have hdirty : held'.Within (D ∪ {parentDir path}) :=
        hheld.mono (Set.union_subset_union_right _ fun q hq => hq.1)
      refine Prog.continues_ok.mpr (Prog.meets_bind.mpr (Prog.meets_attempt.mpr ?_))
      refine (meets_canonicalise hR hdir hdirty).mono fun _ held' hclean => ?_
      exact ⟨e, false, rfl, hclean, fun _ => rfl⟩
    · rename_i heq
      refine Prog.meets_bind.mpr (Prog.meets_attempt.mpr ((hreplace hwithin).mono fun e held' hheld => ?_))
      refine ⟨e, false, rfl, hheld.mono ?_, fun _ => rfl⟩
      rintro q (hq | ⟨rfl, hq⟩)
      · exact hq
      · exact absurd (not_not.mp heq) hq.ne_realStoreDir
  · have hdir := hdirectory (hparent (by simp))
    rcases toggled with - | -
    · refine Prog.meets_bind.mpr (Prog.meets_attempt.mpr ((meets_makeWritable hR hdir hwithin).mono ?_))
      rintro (e | _) held' hheld
      · exact ⟨.error e, false, rfl, hheld, by simp⟩
      refine Prog.continues_ok.mpr (Prog.meets_bind.mpr (Prog.meets_attempt.mpr ?_))
      exact (hreplace hheld).mono fun e held' hheld => ⟨e, true, rfl, hheld, by simp⟩
    · refine Prog.meets_bind.mpr (Prog.meets_attempt.mpr ((hreplace hwithin).mono ?_))
      exact fun e held' hheld => ⟨e, true, rfl, hheld, by simp⟩

theorem meets_ignoreInodes (entries : List DirEntry) (h : held.Within D) :
    (ignoreInodes entries).Meets R.contract True (fun _ => Held.Within D) held := by
  induction entries generalizing held with
  | nil => exact h
  | cons e entries ih =>
      refine Prog.meets_bind.mpr ((meets_checkInterrupt h).mono ?_)
      rintro (e | _) held' hheld
      · exact hheld
      refine Prog.continues_ok.mpr (Prog.meets_bind.mpr ?_)
      refine meets_idle trivial (fun _ _ hpost => hpost) fun known => Prog.continues_ok.mpr ?_
      split
      · exact ih hheld
      · refine Prog.meets_bind.mpr ((ih hheld).mono ?_)
        rintro (e | names) held'' hheld'
        · exact hheld'
        · exact hheld'

theorem meets_readDirectoryIgnoringInodes (h : held.Within D) :
    (readDirectoryIgnoringInodes path).Meets R.contract True (fun _ => Held.Within D) held := by
  refine Prog.meets_bind.mpr (meets_idle trivial (fun _ _ hpost => hpost) fun x => ?_)
  rcases x with e | listing
  · exact h
  refine Prog.continues_ok.mpr (Prog.meets_bind.mpr ((meets_ignoreInodes _ h).mono ?_))
  rintro (e | names) held' hheld
  · exact hheld
  · refine Prog.continues_ok.mpr ?_
    split
    · exact hheld
    · exact hheld

/-- The loop over the entries marks the directory once one of them has. -/
theorem meets_optimiseEntries {walk : OptimiseEnt → Bool → Action Ending}
    (hwalk : ∀ ent toggled held, held.Within (R.marked path D toggled) →
      (walk ent toggled).Meets R.contract True (fun e held => ∃ ended toggled,
        e = .ok (ended, toggled) ∧ held.Within (R.marked path D toggled)) held)
    (names : List OptimiseEnt) (toggled : Bool) (h : held.Within (R.marked path D toggled)) :
    (optimiseEntries walk names toggled).Meets R.contract True (fun e held => ∃ ended toggled,
      e = .ok (ended, toggled) ∧ held.Within (R.marked path D toggled)) held := by
  induction names generalizing toggled held with
  | nil => exact ⟨_, toggled, rfl, h⟩
  | cons ent names ih =>
      refine Prog.meets_bind.mpr ((hwalk ent toggled held h).mono ?_)
      rintro _ held' ⟨e | _, toggled, rfl, hheld⟩
      · exact ⟨_, toggled, rfl, hheld⟩
      · exact ih toggled hheld

/-- The time of the directory is restored at the end. -/
theorem meets_optimiseDirectory (hR : R.Sound) (hdir : R.Directory path)
    {walk : OptimiseEnt → Bool → Action Ending}
    (hwalk : ∀ ent toggled held, held.Within (R.marked path D toggled) →
      (walk ent toggled).Meets R.contract True (fun e held => ∃ ended toggled,
        e = .ok (ended, toggled) ∧ held.Within (R.marked path D toggled)) held)
    (h : held.Within D) : (optimiseDirectory walk path).Meets R.contract True
      (fun e held => ∃ ended, e = .ok ended ∧ held.Within D) held := by
  refine Prog.meets_bind.mpr (Prog.meets_attempt.mpr ?_)
  refine (meets_readDirectoryIgnoringInodes h).mono ?_
  rintro (e | names) held' hheld
  · exact ⟨_, rfl, hheld⟩
  refine Prog.continues_ok.mpr (Prog.meets_bind.mpr ?_)
  refine (meets_optimiseEntries hwalk names false hheld).mono ?_
  rintro _ held'' ⟨ended, toggled, rfl, hheld⟩
  refine Prog.continues_ok.mpr ?_
  cases toggled with
  | false => exact ⟨ended, rfl, hheld⟩
  | true =>
      have hdirty : held''.Within (D ∪ {path}) :=
        hheld.mono (Set.union_subset_union_right _ fun q hq => hq.1)
      refine Prog.meets_bind.mpr (Prog.meets_attempt.mpr ?_)
      exact (meets_canonicalise hR hdir hdirty).mono fun _ _ hclean => ⟨ended, rfl, hclean⟩

/-- A task may be given any subtree of the store. -/
theorem meets_enqueue {task : Task} (hin : R.InStore task.path)
    (hhashes : ∀ captured, task.fileHashes = some captured → R.Truthful captured task.path)
    (h : held.Within D) : (enqueue task).Meets R.contract True
      (fun e held => ∃ ended, e = .ok ended ∧ held.Within D) held := by
  refine Prog.meets_bind.mpr (Prog.meets_attempt.mpr ?_)
  refine meets_idle trivial (fun _ _ hpost => hpost) fun x => ?_
  rcases x with e | _
  · exact ⟨_, rfl, h⟩
  · exact ⟨held, .idle, ⟨rfl, rfl, hin, hhashes⟩, _, rfl, h⟩

theorem meets_optimisePath_ (hR : R.Sound) (pool : Bool) (depth : Nat) (hin : R.InStore path)
    (hhashes : ∀ captured, hashes = some captured → R.Truthful captured path)
    (parentToggled : Option Bool) (hparent : parentToggled ≠ none → R.InStore (parentDir path))
    (h : held.Within (R.marked (parentDir path) D (parentToggled.getD false))) :
    (optimisePath_ R.config hashes pool depth path parentToggled).Meets R.contract True
      (R.Ended path D parentToggled) held := by
  induction depth generalizing path D parentToggled held with
  | zero => trivial
  | succ depth ih =>
      have hgiven : ∀ ended (held : Held),
          held.Within (R.marked (parentDir path) D (parentToggled.getD false)) →
          R.Ended path D parentToggled (.ok (ended, parentToggled.getD false)) held :=
        fun ended _ hheld => ⟨ended, _, rfl, hheld, by rintro rfl; rfl⟩
      refine Prog.meets_bind.mpr (Prog.meets_attempt.mpr (Prog.meets_bind.mpr ?_))
      refine (meets_checkInterrupt h).mono ?_
      rintro (e | _) held' hheld
      · exact hgiven _ held' hheld
      refine Prog.continues_ok.mpr ((meets_lstat hheld).mono ?_)
      rintro (e | st) held'' ⟨hheld', hshows, -⟩
      · exact hgiven _ held'' hheld'
      have hshows := hshows hin st rfl
      refine Prog.continues_ok.mpr ?_
      simp only
      split
      · rename_i htype
        have hdir : R.Directory path := by
          obtain ⟨hcontent, -⟩ | ⟨inode, -, hkind, -⟩ := hshows
          · exact ⟨hin, _, hcontent⟩
          · exact absurd (hkind.symm.trans htype) inode.kind.type_ne_tDirectory
        refine Prog.meets_bind.mpr ((meets_optimiseDirectory hR hdir ?_ hheld').mono ?_)
        · intro ent toggled held hwithin
          have hchild : ∀ captured, hashes = some captured →
              R.Truthful captured (path ++ [ent.name]) := fun captured hc =>
            (hhashes captured hc).append _
          split
          · refine Prog.meets_bind.mpr ((meets_enqueue (hin.append _) hchild hwithin).mono ?_)
            rintro _ held' ⟨ended, rfl, hheld⟩
            exact ⟨ended, toggled, rfl, hheld⟩
          · have hmarked := parentDir_append path ent.name
            refine (ih (hin.append _) hchild (some toggled) (fun _ => by rwa [hmarked])
              (by rwa [hmarked])).mono ?_
            rintro _ held' ⟨ended, toggled', rfl, hheld, -⟩
            rw [hmarked] at hheld
            exact ⟨ended, toggled', rfl, hheld⟩
        · rintro _ held' ⟨ended, rfl, hheld⟩
          exact hgiven ended held' hheld
      · rename_i htype
        exact meets_optimiseFile hR hin hshows htype hhashes parentToggled hparent hheld'

/-- A walk from above leaves nothing to restore. -/
theorem meets_walk (hR : R.Sound) (pool : Bool) (depth : Nat) (hin : R.InStore path)
    (hhashes : ∀ captured, hashes = some captured → R.Truthful captured path)
    (h : held.Within ∅) : (optimisePath_ R.config hashes pool depth path none).Meets R.contract True
      (fun e held => ∃ ended, e = .ok ended ∧ held.Within ∅) held := by
  refine (meets_optimisePath_ hR pool depth hin hhashes none (by simp) h).mono ?_
  rintro _ held' ⟨ended, toggled, rfl, hheld, htoggled⟩
  obtain rfl := htoggled rfl
  exact ⟨_, rfl, hheld⟩

theorem meets_body (hR : R.Sound) {task : Task} (hin : R.InStore task.path)
    (hhashes : ∀ captured, task.fileHashes = some captured → R.Truthful captured task.path)
    (h : held.Within ∅) :
    (body R.config task).Meets R.contract True (fun _ => Held.Within ∅) held := by
  refine Prog.meets_bind.mpr (meets_idle trivial (fun _ _ hpost => hpost) fun takes => ?_)
  refine Prog.continues_ok.mpr ?_
  split
  · refine Prog.meets_bind.mpr ((meets_walk hR task.pool task.depth hin hhashes h).mono ?_)
    rintro _ held' ⟨⟨e | _, toggled⟩, rfl, hheld⟩
    · exact meets_idle trivial (fun _ _ hpost => hpost) fun _ => hheld
    · exact hheld
  · exact h

theorem meets_withPool {run : Action Unit} (h : run.Meets R.contract True (fun _ => Held.Within ∅) held) :
    (withPool run).Meets R.contract True (fun _ => Held.Within ∅) held := by
  refine Prog.meets_finally'.mpr (h.mono fun e held' hheld => ?_)
  refine Prog.meets_bind.mpr (meets_idle trivial (fun _ _ hpost => hpost) fun _ => ?_)
  rintro held'' rfl
  exact hheld

theorem meets_process (h : held.Within ∅) :
    process.Meets R.contract True (fun _ => Held.Within ∅) held := by
  rintro held' rfl
  exact meets_idle trivial (fun _ _ hpost => hpost) fun _ => h

theorem meets_enqueuePaths (depth : Nat) (paths : List StorePath) (h : held.Within ∅) :
    (enqueuePaths R.config depth paths).Meets R.contract True (fun _ => Held.Within ∅) held := by
  induction paths generalizing held with
  | nil => exact h
  | cons path paths ih =>
      refine Prog.meets_bind.mpr (meets_idle trivial (fun _ _ hpost => hpost) fun valid => ?_)
      rcases valid with e | valid
      · exact h
      refine Prog.continues_ok.mpr ?_
      split
      · refine Prog.meets_bind.mpr ((meets_enqueue (inStore_toRealPath path) (by simp) h).mono ?_)
        rintro _ held' ⟨e | _, rfl, hheld⟩
        · exact hheld
        · exact ih hheld
      · exact ih h

theorem meets_loadInodeHash (h : held.Within ∅) :
    (loadInodeHash R.config).Meets R.contract True (fun _ => Held.Within ∅) held := by
  have hinsert : ∀ (entries : List DirEntry) (held : Held), held.Within ∅ →
      (insertInodes entries).Meets R.contract True (fun _ => Held.Within ∅) held := by
    intro entries
    induction entries with
    | nil => exact fun held hheld => hheld
    | cons e entries ih =>
        intro held hheld
        refine Prog.meets_bind.mpr ((meets_checkInterrupt hheld).mono ?_)
        rintro (e | _) held' hheld'
        · exact hheld'
        refine Prog.continues_ok.mpr (Prog.meets_bind.mpr ?_)
        exact meets_idle trivial (fun _ _ hpost => hpost) fun _ => ih held' hheld'
  refine Prog.meets_bind.mpr (meets_idle trivial (fun _ _ hpost => hpost) fun x => ?_)
  rcases x with e | listing
  · exact h
  refine Prog.continues_ok.mpr (Prog.meets_bind.mpr ((hinsert _ held h).mono ?_))
  rintro (e | _) held' hheld
  · exact hheld
  · refine Prog.continues_ok.mpr ?_
    split
    · exact hheld
    · exact hheld

theorem meets_program (hR : R.Sound) (i : ι) (h : held.Within ∅) :
    ((R.job i).program R.config (R.depth i)).Meets R.contract True (fun _ => Held.Within ∅) held := by
  rcases hjob : R.job i with - | ⟨files, path⟩ | path
  · refine Prog.meets_bind.mpr (meets_idle trivial (fun _ _ hpost => hpost) fun paths => ?_)
    rcases paths with e | paths
    · exact h
    refine Prog.continues_ok.mpr (Prog.meets_bind.mpr ((meets_loadInodeHash h).mono ?_))
    rintro (e | _) held' hheld
    · exact hheld
    refine meets_withPool (Prog.meets_bind.mpr ((meets_enqueuePaths _ paths hheld).mono ?_))
    rintro (e | _) held'' hheld'
    · exact hheld'
    · exact meets_process hheld'
  · refine Prog.meets_bind.mpr (meets_idle trivial (fun _ _ hpost => hpost) fun valid => ?_)
    rcases valid with e | valid
    · exact h
    refine Prog.continues_ok.mpr ?_
    split
    · refine Prog.meets_bind.mpr ((meets_loadInodeHash h).mono ?_)
      rintro (e | _) held' hheld
      · exact hheld
      have hhashes : ∀ captured, (files.map fun files => (⟨files,
          (CanonPath.abs (R.config.toRealPath path)).length⟩ : FileHashes)) = some captured →
          R.Truthful captured (R.config.toRealPath path) := by
        rintro captured hc
        obtain ⟨files, rfl, rfl⟩ := Option.map_eq_some_iff.mp hc
        exact hR.truthful hjob
      refine meets_withPool (Prog.meets_bind.mpr ?_)
      refine (meets_walk hR true _ (inStore_toRealPath path) hhashes hheld).mono ?_
      rintro _ held'' ⟨⟨e | _, toggled⟩, rfl, hheld'⟩
      · exact hheld'
      · exact meets_process hheld'
    · exact h
  · refine Prog.meets_bind.mpr ?_
    refine (meets_walk hR false _ (hR.inStore i path hjob) (by simp) h).mono ?_
    rintro _ held' ⟨⟨e, toggled⟩, rfl, hheld⟩
    exact hheld

end Programs

end Runs

end Optimising
end Store
end Archinix
