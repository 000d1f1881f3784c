import Archinix.Store.OptimiseContract
import Archinix.Util.HashText

/-!
# Deduplication keeps what is in the store

Every state that runs of the deduplication reach, however they interleave with each other and with
the unlinking of entries of the farm, and whatever fails.
-/

namespace Archinix
namespace Store
namespace Optimising

open Foundation Util Host

/-- The rendering tells hashes apart. -/
theorem nix32_injective {hash hash' : Hash} (h : hash.nix32 = hash'.nix32) : hash = hash' := by
  have hdecode : BaseNix32.decode hash.nix32 = .ok hash := BaseNix32.decode_encode hash
  rw [h] at hdecode
  exact (Except.ok.inj (hdecode.symm.trans (BaseNix32.decode_encode hash')))

namespace Runs

variable [Sha256] {ι : Type} (R : Runs ι)

/-- All paths but those of the farm and of temporary links hold what they held, entries of the farm
are named by what they hold, and empty files have gained no link. -/
structure Intact (fs : FileSystem) : Prop where
  inode : fs.inode = R.fs.inode
  nextIno : fs.nextIno = R.fs.nextIno
  content : ∀ p, ¬ R.IsFarm p → ¬ R.IsTemp p → fs.content p = R.fs.content p
  farm : ∀ name i, fs.node (R.farm name) = some (.leaf i) → Names name (R.fs.inode i)
  empty : ∀ p i, fs.node p = some (.leaf i) → (R.fs.inode i).kind = .regular [] →
    R.fs.node p = some (.leaf i)

variable {R} {fs fs' : FileSystem} {p temp path : Path} {name : Name} {i : Nat}

/-- One name in the farm is that of one file. -/
theorem Named.inode_eq (hR : R.Sound) (h : R.Named path name) (hi : i < R.fs.nextIno)
    (hnames : Names name (R.fs.inode i)) : R.fs.content path = some (.inr (R.fs.inode i)) ∧
      (R.fs.inode i).kind ≠ .regular [] := by
  obtain ⟨inode, tree, hcontent, htree, hnonempty, rfl⟩ := h.tree
  obtain ⟨tree', htree', hname⟩ := hnames.tree
  obtain ⟨j, hnode, rfl⟩ := FileSystem.leaf_of_content hcontent
  obtain rfl : tree = tree' := hR.collisionFree j i tree tree' (R.fs.ino_lt path j hnode) hi htree
    htree' (nix32_injective hname)
  have hsame : R.fs.inode j = R.fs.inode i :=
    (hR.leaf path j h.inStore hnode).eq_of_tree hnames.canonical htree htree'
  rw [hsame] at hcontent hnonempty
  exact ⟨hcontent, hnonempty⟩

namespace Intact

theorem init (hR : R.Sound) : R.Intact R.fs :=
  ⟨rfl, rfl, fun _ _ _ => rfl, hR.farm, fun _ _ h _ => h⟩

theorem leaf_lt (h : R.Intact fs) (hnode : fs.node p = some (.leaf i)) : i < R.fs.nextIno :=
  h.nextIno ▸ fs.ino_lt p i hnode

theorem content_inStore (h : R.Intact fs) (hp : R.InStore p) : fs.content p = R.fs.content p :=
  h.content p hp.not_isFarm hp.not_isTemp

/-- The file that a name is given to bears it. -/
theorem names_of_named (hR : R.Sound) (h : R.Intact fs) (hpath : R.Named path name)
    (hnode : fs.node path = some (.leaf i)) :
    Names name (R.fs.inode i) ∧ (R.fs.inode i).kind ≠ .regular [] := by
  obtain ⟨inode, tree, hcontent, htree, hnonempty, rfl⟩ := hpath.tree
  have hsame := FileSystem.content_leaf hnode
  rw [h.content_inStore hpath.inStore, hcontent, h.inode] at hsame
  obtain rfl := Sum.inr.inj (Option.some.inj hsame)
  obtain ⟨j, hnode', hinode⟩ := FileSystem.leaf_of_content hcontent
  have hcanonical := hR.leaf path j hpath.inStore hnode'
  rw [hinode] at hcanonical
  exact ⟨⟨hcanonical, tree, htree, rfl⟩, hnonempty⟩

/-- Entries of the farm and temporary links may go. -/
theorem removed (h : R.Intact fs) (hp : R.IsFarm p ∨ R.IsTemp p) (hgone : Removed fs fs' p) :
    R.Intact fs' := by
  have hleaf : ∀ q j, fs'.node q = some (.leaf j) → fs.node q = some (.leaf j) := by
    intro q j hq
    have hne : q ≠ p := by
      rintro rfl
      rw [hgone.gone] at hq
      cases hq
    rwa [← FileSystem.untimed_eq_leaf, ← hgone.untimed hne, FileSystem.untimed_eq_leaf]
  refine ⟨hgone.inode.trans h.inode, hgone.nextIno.trans h.nextIno, fun q hfarm htemp => ?_,
    fun name j hq => h.farm name j (hleaf _ j hq), fun q j hq => h.empty q j (hleaf q j hq)⟩
  have hne : q ≠ p := by
    rintro rfl
    exact hp.elim hfarm htemp
  rw [FileSystem.content_of_untimed hgone.inode (hgone.untimed hne)]
  exact h.content q hfarm htemp

/-- A link of a file that bears its name in the farm may be made in the farm. -/
theorem linked (h : R.Intact fs) (hp : p = R.farm name ∨ R.IsTemp p)
    (hnames : Names name (R.fs.inode i)) (hnonempty : (R.fs.inode i).kind ≠ .regular [])
    (hlinked : Linked fs fs' p i) : R.Intact fs' := by
  have hleaf : ∀ q j, fs'.node q = some (.leaf j) → q ≠ p → fs.node q = some (.leaf j) := by
    intro q j hq hne
    rwa [← FileSystem.untimed_eq_leaf, ← hlinked.untimed q hne, FileSystem.untimed_eq_leaf]
  have hself : ∀ j, fs'.node p = some (.leaf j) → j = i := by
    intro j hj
    rw [hlinked.node] at hj
    cases hj
    rfl
  refine ⟨hlinked.inode.trans h.inode, hlinked.nextIno.trans h.nextIno, fun q hfarm htemp => ?_,
    fun name' j hq => ?_, fun q j hq hempty => ?_⟩
  · have hne : q ≠ p := by
      rintro rfl
      exact hp.elim (fun heq => hfarm ⟨name, heq⟩) htemp
    rw [hlinked.content hne]
    exact h.content q hfarm htemp
  · by_cases heq : R.farm name' = p
    · obtain rfl := hself j (heq ▸ hq)
      rcases hp with rfl | htemp
      · obtain rfl := farm_injective heq
        exact hnames
      · exact absurd heq.symm htemp.ne_farm
    · exact h.farm name' j (hleaf _ j hq heq)
  · by_cases heq : q = p
    · obtain rfl := hself j (heq ▸ hq)
      exact absurd hempty hnonempty
    · exact h.empty q j (hleaf q j hq heq) hempty

/-- A temporary link may be moved over a file that bears its name. -/
theorem replaced (hR : R.Sound) (h : R.Intact fs) (htemp : R.IsTemp temp)
    (hnode : fs.node temp = some (.leaf i)) (hnames : Names name (R.fs.inode i))
    (hpath : R.Named path name) (hmoved : Replaced fs fs' temp path i) : R.Intact fs' := by
  obtain ⟨hcontent, hnonempty⟩ := hpath.inode_eq hR (h.leaf_lt hnode) hnames
  have hne : ∀ {q j}, fs'.node q = some (.leaf j) → q ≠ temp := by
    rintro q j hq rfl
    rw [hmoved.gone] at hq
    cases hq
  refine ⟨hmoved.inode.trans h.inode, hmoved.nextIno.trans h.nextIno, fun q hfarm hq => ?_,
    fun name' j hq => ?_, fun q j hq hempty => ?_⟩
  · by_cases hself : q = path
    · rw [hself, hcontent, FileSystem.content_leaf hmoved.node, hmoved.inode, h.inode]
    · have hqtemp : q ≠ temp := by
        rintro rfl
        exact hq htemp
      rw [hmoved.content hqtemp hself]
      exact h.content q hfarm hq
  · refine h.farm name' j ((hmoved.leaf (hne hq) ?_).mp hq)
    exact hpath.inStore.ne_farm.symm
  · by_cases hself : q = path
    · subst hself
      rw [hmoved.node] at hq
      cases hq
      exact absurd hempty hnonempty
    · exact h.empty q j ((hmoved.leaf (hne hq) hself).mp hq) hempty

/-- Times of directories may change. -/
theorem timed (h : R.Intact fs) {mode : Mode} {mtime mtime' : Time} (hinode : fs'.inode = fs.inode)
    (hnextIno : fs'.nextIno = fs.nextIno) (hother : ∀ q, q ≠ p → fs'.node q = fs.node q)
    (hnode : fs.node p = some (.directory mode mtime))
    (hnode' : fs'.node p = some (.directory mode mtime')) : R.Intact fs' := by
  have huntimed : ∀ q, fs'.untimed q = fs.untimed q := by
    intro q
    by_cases hq : q = p
    · rw [hq, FileSystem.untimed, FileSystem.untimed, hnode, hnode']
      rfl
    · exact FileSystem.untimed_eq_of_node (hother q hq)
  have hleaf : ∀ q j, fs'.node q = some (.leaf j) → fs.node q = some (.leaf j) := by
    intro q j hq
    rwa [← FileSystem.untimed_eq_leaf, ← huntimed q, FileSystem.untimed_eq_leaf]
  refine ⟨hinode.trans h.inode, hnextIno.trans h.nextIno, fun q hfarm htemp => ?_,
    fun name j hq => h.farm name j (hleaf _ j hq), fun q j hq => h.empty q j (hleaf q j hq)⟩
  rw [FileSystem.content_of_untimed hinode (huntimed q)]
  exact h.content q hfarm htemp

end Intact

/-! ## What ties the state to what threads hold -/

/-- Temporary links lead to what bears their name, each is one thread's, and some thread has still
to restore every time that is not the one of the store. -/
structure Inv (R : Runs ι) (fs : FileSystem) (H : Thread ι → Held) : Prop where
  intact : R.Intact fs
  temp : ∀ a p name, (H a).temp = some (p, name) → R.IsTemp p ∧ ∃ i, fs.node p = some (.leaf i) ∧
    Names name (R.fs.inode i) ∧ (R.fs.inode i).kind ≠ .regular []
  apart : ∀ a b p name name', (H a).temp = some (p, name) → (H b).temp = some (p, name') → a = b
  dirty : R.Stamps → ∀ p mode mtime, R.InStore p → fs.node p = some (.directory mode mtime) →
    mtime ≠ mtimeStore → ∃ a, p ∈ (H a).dirty

namespace Inv

variable {H : Thread ι → Held} {a : Thread ι} {held : Held} [DecidableEq ι]

omit [DecidableEq ι] in
theorem init (hR : R.Sound) : R.Inv R.fs fun _ => .idle where
  intact := .init hR
  temp := by simp [Held.idle]
  apart := by simp [Held.idle]
  dirty _ p mode mtime hp hnode hmtime := absurd (hR.directory p mode mtime hp hnode).2 hmtime

/-- A step of one thread: what the others hold stays, and so does what is to be restored. -/
theorem step (h : R.Inv fs H) (hintact : R.Intact fs')
    (hothers : ∀ b p name i, b ≠ a → (H b).temp = some (p, name) → fs.node p = some (.leaf i) →
      fs'.node p = some (.leaf i))
    (htemp : ∀ p name, held.temp = some (p, name) → R.IsTemp p ∧
      (∃ i, fs'.node p = some (.leaf i) ∧ Names name (R.fs.inode i) ∧
        (R.fs.inode i).kind ≠ .regular []) ∧
      ∀ b name', b ≠ a → (H b).temp ≠ some (p, name'))
    (hdirty : R.Stamps → ∀ p mode mtime, R.InStore p → fs'.node p = some (.directory mode mtime) →
      mtime ≠ mtimeStore → p ∈ held.dirty ∨
        (fs.node p = some (.directory mode mtime) ∧ p ∉ (H a).dirty)) :
    R.Inv fs' (Function.update H a held) where
  intact := hintact
  temp b p name hb := by
    by_cases hba : b = a
    · subst hba
      rw [Function.update_self] at hb
      exact ⟨(htemp p name hb).1, (htemp p name hb).2.1⟩
    · rw [Function.update_of_ne hba] at hb
      obtain ⟨hp, i, hnode, hnames⟩ := h.temp b p name hb
      exact ⟨hp, i, hothers b p name i hba hb hnode, hnames⟩
  apart b c p name name' hb hc := by
    by_cases hba : b = a
    · by_cases hca : c = a
      · rw [hba, hca]
      · subst hba
        rw [Function.update_self] at hb
        rw [Function.update_of_ne hca] at hc
        exact absurd hc ((htemp p name hb).2.2 c name' hca)
    · rw [Function.update_of_ne hba] at hb
      by_cases hca : c = a
      · subst hca
        rw [Function.update_self] at hc
        exact absurd hb ((htemp p name' hc).2.2 b name hba)
      · rw [Function.update_of_ne hca] at hc
        exact h.apart b c p name name' hb hc
  dirty hstamps p mode mtime hp hnode hmtime := by
    rcases hdirty hstamps p mode mtime hp hnode hmtime with hheld | ⟨hnode', hnot⟩
    · exact ⟨a, by rwa [Function.update_self]⟩
    · obtain ⟨b, hb⟩ := h.dirty hstamps p mode mtime hp hnode' hmtime
      have hba : b ≠ a := by
        rintro rfl
        exact hnot hb
      exact ⟨b, by rwa [Function.update_of_ne hba]⟩

/-- A step that leaves the files alone. -/
theorem keep (h : R.Inv fs H) (htemp : held.temp = (H a).temp ∨ held.temp = none)
    (hdirty : R.Stamps → ∀ p mode mtime, R.InStore p → fs.node p = some (.directory mode mtime) →
      mtime ≠ mtimeStore → p ∈ (H a).dirty → p ∈ held.dirty) :
    R.Inv fs (Function.update H a held) := by
  refine h.step h.intact (fun _ _ _ _ _ _ hnode => hnode) (fun p name hp => ?_)
    fun hstamps p mode mtime hp hnode hmtime => ?_
  · rcases htemp with htemp | htemp
    · rw [htemp] at hp
      exact ⟨(h.temp a p name hp).1, (h.temp a p name hp).2,
        fun b name' hba hb => hba (h.apart b a p name' name hb hp)⟩
    · rw [htemp] at hp
      cases hp
  · by_cases hmem : p ∈ (H a).dirty
    · exact Or.inl (hdirty hstamps p mode mtime hp hnode hmtime hmem)
    · exact Or.inr ⟨hnode, hmem⟩

/-- A step that changes nothing. -/
theorem same (h : R.Inv fs H) (a : Thread ι) : R.Inv fs (Function.update H a (H a)) := by
  rwa [Function.update_eq_self]

omit [DecidableEq ι] in
/-- An entry of the farm goes. -/
theorem removed_farm (h : R.Inv fs H) (hgone : Removed fs fs' (R.farm name)) : R.Inv fs' H where
  intact := h.intact.removed (Or.inl ⟨name, rfl⟩) hgone
  temp b p name' hb := by
    obtain ⟨hp, i, hnode, hnames⟩ := h.temp b p name' hb
    refine ⟨hp, i, ?_, hnames⟩
    rwa [← FileSystem.untimed_eq_leaf, hgone.untimed hp.ne_farm, FileSystem.untimed_eq_leaf]
  apart := h.apart
  dirty hstamps p mode mtime hp hnode hmtime := by
    rw [hgone.other p hp.ne_farm (by rw [parentDir_farm]; exact hp.ne_linksDir)] at hnode
    exact h.dirty hstamps p mode mtime hp hnode hmtime

/-- A link is made in the farm or for a temporary link. -/
theorem linked (h : R.Inv fs H) (hp : p = R.farm name ∨ R.IsTemp p)
    (hnames : Names name (R.fs.inode i)) (hnonempty : (R.fs.inode i).kind ≠ .regular [])
    (hlinked : Linked fs fs' p i)
    (htemp : held.temp = (H a).temp ∨ (R.IsTemp p ∧ held.temp = some (p, name)))
    (hdirty : held.dirty = (H a).dirty) : R.Inv fs' (Function.update H a held) := by
  refine h.step (h.intact.linked hp hnames hnonempty hlinked)
    (fun _ _ _ _ _ _ hnode => hlinked.leaf hnode) (fun q name' hq => ?_)
    fun _ q mode mtime hq hnode _ => ?_
  · rcases htemp with htemp | ⟨hpt, htemp⟩
    · rw [htemp] at hq
      obtain ⟨hqt, j, hnode, hnames'⟩ := h.temp a q name' hq
      exact ⟨hqt, ⟨j, hlinked.leaf hnode, hnames'⟩,
        fun b name'' hba hb => hba (h.apart b a q name'' name' hb hq)⟩
    · rw [htemp] at hq
      obtain ⟨rfl, rfl⟩ := Prod.mk.inj (Option.some.inj hq)
      refine ⟨hpt, ⟨i, hlinked.node, hnames, hnonempty⟩, fun b name'' _ hb => ?_⟩
      -- the name was free
      obtain ⟨-, j, hnode, -⟩ := h.temp b _ name'' hb
      rw [hlinked.free] at hnode
      cases hnode
  · have hne : q ≠ p := by
      rintro rfl
      exact hp.elim (fun heq => hq.ne_farm heq) hq.not_isTemp
    have hparent : q ≠ parentDir p := by
      rcases hp with rfl | hpt
      · rw [parentDir_farm]
        exact hq.ne_linksDir
      · rw [hpt.parentDir]
        exact hq.ne_realStoreDir
    rw [hlinked.other q hne hparent] at hnode
    by_cases hmem : q ∈ (H a).dirty
    · exact Or.inl (hdirty ▸ hmem)
    · exact Or.inr ⟨hnode, hmem⟩

variable {env : Environment} {faults : Faults} {umask : Mode}

theorem lstat (h : R.Inv fs H) (hfaults : R.Stamps → ∀ p e, ¬ faults (.lstat p) e)
    {x : Except Errno FileStat} (hout : Outcome faults umask fs (.lstat p) x fs') :
    ∃ held', R.contract.post (.sys (.lstat p)) (H a) x held' ∧
      R.Inv fs' (Function.update H a held') := by
  obtain ⟨rfl, hx⟩ := hout.lstat
  have hshows : R.InStore p → ∀ st, x = .ok st → R.Shows p st := by
    rintro hp st rfl
    rcases hx with hx | ⟨e, -, hx⟩
    · have hcontent := h.intact.content_inStore hp
      unfold FileSystem.lstat at hx
      rcases hnode : fs'.node p with - | ⟨mode, mtime⟩ | i
      · rw [hnode] at hx
        cases hx
      · rw [hnode] at hx
        cases hx
        exact Or.inl ⟨by rw [← hcontent]; simp [FileSystem.content, hnode, FileSystem.statNode], rfl⟩
      · rw [hnode] at hx
        cases hx
        refine Or.inr ⟨fs'.inode i, ?_, rfl, rfl, rfl, rfl⟩
        rw [← hcontent, FileSystem.content_leaf hnode]
    · cases hx
  by_cases hlate : ∃ st, x = .ok st ∧ st.mtime ≠ mtimeStore
  · exact ⟨H a, ⟨hshows, rfl, subset_rfl, fun _ => hlate⟩, h.same a⟩
  · refine ⟨⟨(H a).temp, (H a).dirty \ {p}⟩, ⟨hshows, rfl, Set.sdiff_subset, fun hmem =>
      absurd rfl hmem.2⟩, h.keep (Or.inl rfl) ?_⟩
    intro hstamps q mode mtime hq hnode hmtime hmem
    refine ⟨hmem, ?_⟩
    rintro rfl
    rcases hx with rfl | ⟨e, he, -⟩
    · refine hlate ⟨fs'.statNode (.directory mode mtime), ?_, hmtime⟩
      simp [FileSystem.lstat, hnode]
    · exact hfaults hstamps _ e he

theorem link (hR : R.Sound) (h : R.Inv fs H) {src : Path}
    (hpre : R.contract.pre (.sys (.link src p)) (H a)) {x : Except Errno Unit}
    (hout : Outcome faults umask fs (.link src p) x fs') :
    ∃ held', R.contract.post (.sys (.link src p)) (H a) x held' ∧
      R.Inv fs' (Function.update H a held') := by
  rcases hpre with ⟨name, hsrc, rfl⟩ | ⟨hnone, hp, path, name, hpath, rfl⟩
  · refine ⟨H a, ⟨fun _ => rfl, fun htemp => absurd rfl htemp.ne_farm⟩, ?_⟩
    rcases hout.link with ⟨-, i, hnode, hlinked⟩ | ⟨rfl, -⟩
    · obtain ⟨hnames, hnonempty⟩ := h.intact.names_of_named hR hsrc hnode
      exact h.linked (Or.inl rfl) hnames hnonempty hlinked (Or.inl rfl) rfl
    · exact h.same a
  · have hnotFarm : ¬ R.IsFarm p := fun ⟨_, heq⟩ => hp.ne_farm heq
    rcases hout.link with ⟨rfl, i, hnode, hlinked⟩ | ⟨rfl, e, rfl, -⟩
    · have hnames := h.intact.farm name i hnode
      obtain ⟨-, hnonempty⟩ := hpath.inode_eq hR (h.intact.leaf_lt hnode) hnames
      refine ⟨⟨some (p, name), (H a).dirty⟩, ⟨fun hfarm => absurd hfarm hnotFarm, fun _ =>
        ⟨by simp, fun _ name' heq => ?_⟩⟩,
        h.linked (Or.inr hp) hnames hnonempty hlinked (Or.inr ⟨hp, rfl⟩) rfl⟩
      rw [farm_injective heq]
    · exact ⟨H a, ⟨fun _ => rfl, fun _ => ⟨fun _ _ => rfl, by simp⟩⟩, h.same a⟩

theorem rename (hR : R.Sound) (h : R.Inv fs H) {src : Path}
    (hpre : R.contract.pre (.sys (.rename src p)) (H a)) {x : Except Errno Unit}
    (hout : Outcome faults umask fs (.rename src p) x fs') :
    ∃ held', R.contract.post (.sys (.rename src p)) (H a) x held' ∧
      R.Inv fs' (Function.update H a held') := by
  obtain ⟨name, htemp, hpath⟩ := hpre
  obtain ⟨hsrc, i, hnode, hnames, hnonempty⟩ := h.temp a src name htemp
  obtain ⟨hcontent, -⟩ := hpath.inode_eq hR (h.intact.leaf_lt hnode) hnames
  rw [← h.intact.content_inStore hpath.inStore] at hcontent
  obtain ⟨j, hdst, -⟩ := FileSystem.leaf_of_content hcontent
  rcases hout.rename_leaf hnode hdst hpath.inStore.ne_nil with ⟨rfl, hmoved⟩ | ⟨rfl, e, rfl, -⟩
  · refine ⟨⟨none, (H a).dirty ∪ R.stamped (parentDir p)⟩, ⟨fun _ => rfl, by simp⟩, ?_⟩
    rcases hmoved with ⟨-, rfl⟩ | hmoved
    · exact h.keep (Or.inr rfl) fun _ _ _ _ _ _ _ hmem => Or.inl hmem
    · refine h.step (h.intact.replaced hR hsrc hnode hnames hpath hmoved)
        (fun b q name' k hba hb hq => ?_) (by simp) fun _ q mode mtime hq hq' _ => ?_
      · have hqs : q ≠ src := by
          rintro rfl
          exact hba (h.apart b a q name' name hb htemp)
        have hqp : q ≠ p := by
          rintro rfl
          exact hpath.inStore.not_isTemp (h.temp b q name' hb).1
        exact (hmoved.leaf hqs hqp).mpr hq
      · by_cases hparent : q = parentDir p
        · exact Or.inl (Or.inr ⟨hparent, hq⟩)
        have hqs : q ≠ src := by
          rintro rfl
          exact hq.not_isTemp hsrc
        have hqp : q ≠ p := by
          rintro rfl
          rw [hmoved.node] at hq'
          cases hq'
        have hroot : q ≠ parentDir src := by
          rw [hsrc.parentDir]
          exact hq.ne_realStoreDir
        rw [hmoved.other q hqs hqp hroot hparent] at hq'
        by_cases hmem : q ∈ (H a).dirty
        · exact Or.inl (Or.inl hmem)
        · exact Or.inr ⟨hq', hmem⟩
  · exact ⟨H a, ⟨by simp, fun _ _ => rfl⟩, h.same a⟩

theorem unlink (h : R.Inv fs H) (hpre : R.contract.pre (.sys (.unlink p)) (H a))
    {x : Except Errno Unit} (hout : Outcome faults umask fs (.unlink p) x fs') :
    ∃ held', R.contract.post (.sys (.unlink p)) (H a) x held' ∧
      R.Inv fs' (Function.update H a held') := by
  rcases hpre with ⟨name, rfl⟩ | ⟨name, htemp⟩
  · refine ⟨H a, ⟨fun _ => rfl, fun name' htemp => ?_⟩, ?_⟩
    · exact absurd rfl (h.temp a _ name' htemp).1.ne_farm
    · rcases hout.unlink farm_ne_nil with ⟨-, -, hgone⟩ | ⟨rfl, -⟩
      · exact (h.removed_farm hgone).same a
      · exact h.same a
  · obtain ⟨hp, -⟩ := h.temp a p name htemp
    refine ⟨⟨none, (H a).dirty⟩, ⟨fun ⟨_, heq⟩ => absurd heq hp.ne_farm, fun _ _ => rfl⟩, ?_⟩
    rcases hout.unlink hp.ne_nil with ⟨-, -, hgone⟩ | ⟨rfl, -⟩
    · refine h.step (h.intact.removed (Or.inr hp) hgone) (fun b q name' k hba hb hq => ?_) (by simp)
        fun _ q mode mtime hq hnode _ => ?_
      · have hne : q ≠ p := by
          rintro rfl
          exact hba (h.apart b a q name' name hb htemp)
        rwa [← FileSystem.untimed_eq_leaf, hgone.untimed hne, FileSystem.untimed_eq_leaf]
      · have hne : q ≠ p := by
          rintro rfl
          exact hq.not_isTemp hp
        have hroot : q ≠ parentDir p := by
          rw [hp.parentDir]
          exact hq.ne_realStoreDir
        rw [hgone.other q hne hroot] at hnode
        by_cases hmem : q ∈ (H a).dirty
        · exact Or.inl hmem
        · exact Or.inr ⟨hnode, hmem⟩
    · exact h.keep (Or.inr rfl) fun _ _ _ _ _ _ _ hmem => hmem

theorem utimens (h : R.Inv fs H) (hfaults : R.Stamps → ∀ p e, ¬ faults (.utimens p mtimeStore) e)
    {mtime : Time} (hpre : R.contract.pre (.sys (.utimens p mtime)) (H a)) {x : Except Errno Unit}
    (hout : Outcome faults umask fs (.utimens p mtime) x fs') :
    ∃ held', R.contract.post (.sys (.utimens p mtime)) (H a) x held' ∧
      R.Inv fs' (Function.update H a held') := by
  obtain ⟨hp, ⟨mode, hcontent⟩, rfl⟩ := hpre
  rw [← h.intact.content_inStore hp] at hcontent
  obtain ⟨mtime₀, hnode⟩ := FileSystem.directory_of_content hcontent
  refine ⟨⟨(H a).temp, (H a).dirty \ {p}⟩, rfl, ?_⟩
  obtain ⟨hinode, hnextIno, hother, ⟨-, hnode'⟩ | ⟨rfl, e, -, he⟩⟩ := hout.utimens_directory hnode
  · have hleaf : ∀ {q k}, fs.node q = some (.leaf k) → fs'.node q = some (.leaf k) := by
      intro q k hq
      have hne : q ≠ p := by
        rintro rfl
        rw [hnode] at hq
        cases hq
      rwa [hother q hne]
    refine h.step (h.intact.timed hinode hnextIno hother hnode hnode')
      (fun _ _ _ _ _ _ hq => hleaf hq) (fun q name hq => ?_) fun _ q mode' mtime hq hq' hmtime => ?_
    · obtain ⟨hqt, k, hk, hnames⟩ := h.temp a q name hq
      exact ⟨hqt, ⟨k, hleaf hk, hnames⟩,
        fun b name' hba hb => hba (h.apart b a q name' name hb hq)⟩
    · have hne : q ≠ p := by
        rintro rfl
        rw [hnode'] at hq'
        cases hq'
        exact hmtime rfl
      rw [hother q hne] at hq'
      by_cases hmem : q ∈ (H a).dirty
      · exact Or.inl ⟨hmem, hne⟩
      · exact Or.inr ⟨hq', hmem⟩
  · exact h.keep (Or.inl rfl) fun hstamps => absurd he (hfaults hstamps p e)

end Inv

/-- A whole dump of a file is its archive. -/
theorem Intact.dump {env : Environment} (h : R.Intact fs) {x : Bytes × Except Exception Unit}
    (hdump : Dump env fs p x) {inode : Inode} {tree : Util.Tree} (hp : R.InStore p)
    (hcontent : R.fs.content p = some (.inr inode)) (htree : inode.tree = some tree)
    (hok : x.2 = .ok ()) : x.1 = tree.nar := by
  rw [← h.content_inStore hp] at hcontent
  obtain ⟨i, hnode, rfl⟩ := FileSystem.leaf_of_content hcontent
  cases hdump with
  | run kernel => rw [dumpPath_leaf hnode htree]
  | fault => cases hok
  | interrupt => cases hok

variable [DecidableEq ι]

/-- The invariant is kept by all that may be asked for, and by whoever unlinks entries. -/
theorem upholds (hR : R.Sound) : Upholds (exec R.env R.valid) R.Unlinks R.contract .idle
    fun w H => R.Inv w.fs H where
  op w H a r x w' h hpre hexec := by
    cases r with
    | sys c =>
        obtain ⟨fs', hout, rfl⟩ := hexec
        cases c with
        | lstat p => exact h.lstat (fun hstamps => hstamps.lstat) hout
        | readdir p => exact ⟨H a, rfl, hout.readdir.1 ▸ h.same a⟩
        | link src dst => exact h.link hR hpre hout
        | rename src dst => exact h.rename hR hpre hout
        | unlink p => exact h.unlink hpre hout
        | utimens p mtime => exact h.utimens (fun hstamps => hstamps.utimens) hpre hout
        | _ => exact hpre.elim
    | tempName =>
        obtain ⟨hstarts, -, rfl⟩ := hexec
        exact ⟨H a, ⟨hstarts, rfl⟩, h.same a⟩
    | dumpPath p =>
        obtain ⟨hdump, rfl⟩ := hexec
        exact ⟨H a, ⟨rfl, fun _ _ hp hcontent htree hok => h.intact.dump hdump hp hcontent htree hok⟩,
          h.same a⟩
    | insert | linked | fail | shutdown =>
        obtain rfl := hexec
        exact ⟨H a, rfl, h.same a⟩
    | _ =>
        obtain ⟨-, rfl⟩ := hexec
        exact ⟨H a, rfl, h.same a⟩
  fork w H a b task held held' h hfork hba hidle := by
    obtain ⟨rfl, rfl, -⟩ := hfork
    rw [Function.update_eq_self, ← hidle]
    exact h.same b
  join w H i h hidle := ⟨_, rfl, h.same _⟩
  outside w H w' h hout := by
    obtain ⟨name, ino, fs', -, hgone, rfl⟩ := hout
    exact h.removed_farm hgone

/-- The invariant and the contract hold in every reachable state. -/
theorem inv_of_reachable (hR : R.Sound) {m : Machine Requests (World ι) ι Unit}
    (h : R.system.Reachable m) : ∃ H, R.Inv m.state.fs H ∧
      Foundation.Kept R.contract True .idle (fun _ _ held => held = .idle) m.process H := by
  refine machine_meets (upholds hR) (fun task held held' held'' hfork => ?_) (fun m hm => ?_) h
  · obtain ⟨-, rfl, hin, hhashes⟩ := hfork
    exact (meets_body hR hin hhashes (Held.idle_within ∅)).mono fun _ _ hheld => hheld.eq_idle
  · refine ⟨fun _ => .idle, ?_, ?_, ?_, ?_⟩
    · rw [hm.fs]
      exact .init hR
    · intro i
      rw [hm.process]
      exact (meets_program hR i (Held.idle_within ∅)).mono fun _ _ hheld => hheld.eq_idle
    · intro i n p hp
      rw [hm.process] at hp
      cases hp
    · exact fun _ _ _ => rfl

omit [DecidableEq ι] in
/-- What is archived of a store path does not change. -/
theorem Intact.archives_iff (h : R.Intact fs) (hp : R.InStore p) (tree : Util.Tree) :
    fs.Archives p tree ↔ R.fs.Archives p tree := by
  have hlabel : ∀ q, fs.label (p ++ q) = R.fs.label (p ++ q) := by
    intro q
    have hcontent := h.content_inStore (hp.append q)
    unfold FileSystem.content at hcontent
    unfold FileSystem.label
    rcases hnode : fs.node (p ++ q) with - | ⟨mode, mtime⟩ | i <;>
      rcases hnode' : R.fs.node (p ++ q) with - | ⟨mode', mtime'⟩ | j <;>
      simp_all
  constructor
  · exact fun ht => ⟨fun q => (hlabel q).symm.trans (ht.holds q), ht.inOrder, ht.height⟩
  · exact fun ht => ⟨fun q => (hlabel q).trans (ht.holds q), ht.inOrder, ht.height⟩

omit [DecidableEq ι] in
/-- No thread of finished runs holds anything. -/
theorem idle_of_finished {process : ι → Process Requests Unit} {H : Thread ι → Held}
    (h : Foundation.Kept R.contract True .idle (fun _ _ held => held = .idle) process H)
    (hfinished : ∀ i, (process i).Finished) (a : Thread ι) : H a = .idle := by
  obtain ⟨i, - | n⟩ := a
  · have hmain := h.main i
    have hdone := (hfinished i).1
    generalize (process i).main = p at hmain hdone
    cases p with
    | done e => exact hmain
    | op | fork | join | spin => exact hdone.elim
  · exact h.idle_of_finished (hfinished i).2 n

end Runs

namespace Example

def config : LocalStoreConfig where
  toStoreDirConfig := .nixStore
  rootDir := []
  ignoreGcDeleteFailure := false

def path : StorePath := ⟨str "10000000000000000000000000000000-files", by decide, by decide⟩

def directory : Node := .directory 0o755 1

/-- A store path with two files and an empty farm. -/
def nodes : List (Path × Node) :=
  [([], directory), ([str "nix"], directory), (config.realStoreDir, directory),
   (config.linksDir, directory), (config.toRealPath path, directory),
   (config.toRealPath path ++ [str "x"], .leaf 0), (config.toRealPath path ++ [str "y"], .leaf 1)]

/-- Both files hold the same. -/
def inode (_ : Nat) : Inode := ⟨.regular [7], 0o444, 1⟩

/-- Two runs over the store, one of them with captured hashes that say nothing. -/
def twoRuns : Runs Bool where
  config := config
  env := .reliable 0o022
  valid := [path]
  fs := .ofNodes nodes inode 2 (by decide)
  job run := if run then .optimiseStore else .optimisePath (some fun _ => none) path
  depth _ := 3

theorem node_cases {p : Path} {n : Node} (h : twoRuns.fs.node p = some n) : n = directory ∨
    (p = config.toRealPath path ++ [str "x"] ∧ n = .leaf 0) ∨
    (p = config.toRealPath path ++ [str "y"] ∧ n = .leaf 1) := by
  have hmem : (p, n) ∈ nodes := FileSystem.mem_of_lookup h
  simp only [nodes, List.mem_cons, Prod.mk.injEq, List.not_mem_nil, or_false] at hmem
  rcases hmem with h | h | h | h | h | h | h
  · exact Or.inl h.2
  · exact Or.inl h.2
  · exact Or.inl h.2
  · exact Or.inl h.2
  · exact Or.inl h.2
  · exact Or.inr (Or.inl h)
  · exact Or.inr (Or.inr h)

theorem canonical (i : Nat) : Canonical (inode i) := by
  have hmode : (0o444 : Mode) = if Mode.isExecutable 0o444 then 0o555 else 0o444 := by decide
  exact ⟨rfl, fun _ _ => hmode, fun _ h => nomatch h⟩

theorem sound [Sha256] : twoRuns.Sound where
  directory p mode mtime _ hnode := by
    rcases node_cases hnode with hn | ⟨-, hn⟩ | ⟨-, hn⟩ <;> cases hn
    exact ⟨rfl, rfl⟩
  leaf _ i _ _ := canonical i
  farm name i hnode := by
    have hdir : parentDir (twoRuns.farm name) = config.linksDir := Runs.parentDir_farm
    rcases node_cases hnode with hn | ⟨hp, -⟩ | ⟨hp, -⟩
    · cases hn
    · rw [hp, parentDir_append] at hdir
      exact absurd hdir (by decide)
    · rw [hp, parentDir_append] at hdir
      exact absurd hdir (by decide)
  collisionFree _ _ _ _ _ _ ht hu _ := Option.some.inj (ht.symm.trans hu)
  captured run files p hjob _ _ _ _ _ _ hhash := by
    cases run with
    | true => cases hjob
    | false =>
        cases hjob
        cases hhash
  inStore run p hjob := by
    cases run with
    | true => cases hjob
    | false => cases hjob

def start [Sha256] : Machine Requests (World Bool) Bool Unit where
  state := ⟨twoRuns.fs, fun _ => [], fun _ => 0, fun _ => 0, fun _ => none, fun _ => false⟩
  process run := .start ((twoRuns.job run).program config 3)

theorem start_initial [Sha256] : twoRuns.Initial start := ⟨rfl, rfl, rfl, rfl, rfl, rfl, rfl⟩

end Example

end Optimising
end Store
end Archinix
