import Archinix.Host.SystemCalls

/-!
# What a system call leaves

One statement for each call: the answer, and the nodes and inodes of the state
after it in terms of the state before it.  Proofs about programs use these and
never look into the calls.
-/

namespace Archinix
namespace Host

open Util

/-- A node without its modification time. -/
def Node.untimed : Node → Node
  | .directory mode _ => .directory mode 0
  | .leaf i => .leaf i

/-- What kind of node it is: a directory, or a link to an inode. -/
def Node.link : Node → Option Nat
  | .directory _ _ => none
  | .leaf i => some i

namespace FileSystem

variable (fs : FileSystem)

/-- The node at a path up to the modification time of a directory. -/
def untimed (p : Path) : Option Node := (fs.node p).map Node.untimed

/-- Whether there is a directory or a link to which inode. -/
def shape (p : Path) : Option (Option Nat) := (fs.node p).map Node.link

variable {fs} {fs' : FileSystem} {p q : Path}

theorem untimed_eq_leaf {i : Nat} : fs.untimed p = some (.leaf i) ↔ fs.node p = some (.leaf i) := by
  rcases h : fs.node p with - | ⟨mode, mtime⟩ | j <;> simp [untimed, h, Node.untimed]

theorem shape_eq_leaf {i : Nat} : fs.shape p = some (some i) ↔ fs.node p = some (.leaf i) := by
  rcases h : fs.node p with - | ⟨mode, mtime⟩ | j <;> simp [shape, h, Node.link]

theorem shape_eq_directory : fs.shape p = some none ↔ fs.IsDir p := by
  rcases h : fs.node p with - | ⟨mode, mtime⟩ | j <;> simp [shape, h, Node.link, IsDir]

theorem shape_eq_none : fs.shape p = none ↔ fs.node p = none := by
  simp [shape]

theorem shape_eq_of_untimed (h : fs'.untimed q = fs.untimed p) : fs'.shape q = fs.shape p := by
  rcases h₁ : fs'.node q with - | ⟨mode, mtime⟩ | i <;>
    rcases h₂ : fs.node p with - | ⟨mode', mtime'⟩ | j <;>
    simp_all [untimed, shape, Node.untimed, Node.link]

theorem untimed_eq_of_node (h : fs'.node q = fs.node p) : fs'.untimed q = fs.untimed p := by
  simp [untimed, h]

theorem shape_eq_of_node (h : fs'.node q = fs.node p) : fs'.shape q = fs.shape p := by
  simp [shape, h]

theorem isDir_iff_of_untimed (h : fs'.untimed p = fs.untimed p) : fs'.IsDir p ↔ fs.IsDir p := by
  rw [← shape_eq_directory, ← shape_eq_directory, shape_eq_of_untimed h]

variable (fs fs') in
/-- The path leads nowhere any more, or to what it did. -/
def GoneOrSame (q : Path) : Prop := fs'.node q = none ∨ fs'.shape q = fs.shape q

theorem GoneOrSame.trans {fs'' : FileSystem} (h : fs.GoneOrSame fs' q)
    (h' : fs'.GoneOrSame fs'' q) : fs.GoneOrSame fs'' q := by
  rcases h' with hgone | hsame
  · exact Or.inl hgone
  · rcases h with hgone | hsame'
    · rw [shape_eq_none.mpr hgone, shape_eq_none] at hsame
      exact Or.inl hsame
    · exact Or.inr (hsame.trans hsame')

theorem goneOrSame_of_untimed (h : fs'.untimed q = fs.untimed q) : fs.GoneOrSame fs' q :=
  Or.inr (shape_eq_of_untimed h)

theorem GoneOrSame.node_eq_none (h : fs.GoneOrSame fs' q) (hq : fs.node q = none) :
    fs'.node q = none := by
  rcases h with hgone | hsame
  · exact hgone
  · rwa [shape_eq_none.mpr hq, shape_eq_none] at hsame

theorem GoneOrSame.leaf (h : fs.GoneOrSame fs' q) {i : Nat} (hq : fs'.node q = some (.leaf i)) :
    fs.node q = some (.leaf i) := by
  rcases h with hgone | hsame
  · rw [hgone] at hq
    cases hq
  · rwa [← shape_eq_leaf, ← hsame, shape_eq_leaf]

theorem GoneOrSame.of_leaf (h : fs.GoneOrSame fs' q) {i : Nat} (hq : fs.node q = some (.leaf i)) :
    fs'.node q = none ∨ fs'.node q = some (.leaf i) :=
  h.imp id fun hsame => by rwa [← shape_eq_leaf, hsame, shape_eq_leaf]

/-- A directory has something at every prefix of what it holds. -/
theorem isDir_of_below {r : Path} (hr : r ≠ []) (h : fs.node (p ++ r) ≠ none) : fs.IsDir p := by
  induction r using List.reverseRecOn with
  | nil => exact absurd rfl hr
  | append_singleton r name ih =>
      obtain ⟨mode, mtime, hdir⟩ := fs.parent_dir (p ++ (r ++ [name])) (by simp) h
      rw [← List.append_assoc, parentDir_append] at hdir
      by_cases hnil : r = []
      · subst hnil
        exact ⟨mode, mtime, by simpa using hdir⟩
      · exact ih hnil (by simp [hdir])

theorem exists_of_below {r : Path} (h : fs.node (p ++ r) ≠ none) : fs.node p ≠ none := by
  by_cases hr : r = []
  · simpa [hr] using h
  · obtain ⟨mode, mtime, hdir⟩ := isDir_of_below hr h
    simp [hdir]

/-! ## Touching a directory -/

@[simp] theorem touch_inode (now : Time) : (fs.touch now p).inode = fs.inode := rfl

@[simp] theorem touch_nextIno (now : Time) : (fs.touch now p).nextIno = fs.nextIno := rfl

theorem touch_node_of_ne (now : Time) (h : q ≠ p) : (fs.touch now p).node q = fs.node q := by
  simp [touch, modifyDirectory, h]

@[simp] theorem touch_untimed (now : Time) : (fs.touch now p).untimed q = fs.untimed q := by
  by_cases h : q = p
  · subst h
    rcases hnode : fs.node q with - | ⟨mode, mtime⟩ | i <;>
      simp [untimed, touch, modifyDirectory, hnode, Node.untimed]
  · simp [untimed, touch_node_of_ne now h]

/-! ## Names and links -/

theorem names_eq_nil_iff : fs.names p = [] ↔ ∀ name, fs.node (p ++ [name]) = none := by
  rw [List.eq_nil_iff_forall_not_mem]
  exact forall_congr' fun name => by rw [mem_names, not_not]

theorem mem_entries {e : DirEntry} :
    e ∈ fs.entries p ↔ ∃ n, fs.node (p ++ [e.name]) = some n ∧ e = fs.entryOf e.name n := by
  simp only [entries, List.mem_filterMap, Option.map_eq_some_iff, mem_names]
  constructor
  · rintro ⟨name, -, n, hn, rfl⟩
    have hname : (fs.entryOf name n).name = name := by cases n <;> rfl
    exact ⟨n, by rw [hname]; exact hn, by rw [hname]⟩
  · rintro ⟨n, hn, he⟩
    exact ⟨e.name, by simp [hn], n, hn, he.symm⟩

theorem map_name_entries : (fs.entries p).map (·.name) = fs.names p := by
  have hname : ∀ name n, (fs.entryOf name n).name = name := by
    intro name n
    cases n <;> rfl
  have hgo : ∀ l : List Name, (∀ name ∈ l, fs.node (p ++ [name]) ≠ none) →
      (l.filterMap fun name => (fs.node (p ++ [name])).map (fs.entryOf name)).map (·.name) = l := by
    intro l
    induction l with
    | nil => simp
    | cons name l ih =>
        intro hl
        obtain ⟨n, hn⟩ := Option.ne_none_iff_exists'.mp (hl name (by simp))
        simp [hn, hname, ih fun m hm => hl m (List.mem_cons_of_mem _ hm)]
  exact hgo _ fun name hname => mem_names.mp hname

theorem nodup_names : (fs.names p).Nodup := List.nodup_dedup _

theorem mem_linkPaths {i : Nat} :
    q ∈ fs.dom.toFinset.filter (fun p => fs.node p = some (.leaf i)) ↔
      fs.node q = some (.leaf i) := by
  simp only [Finset.mem_filter, List.mem_toFinset, and_iff_right_iff_imp]
  intro h
  exact fs.mem_dom q (by simp [h])

/-- A path that is an inode's only link. -/
theorem nlink_eq_one_iff {i : Nat} (h : fs.node p = some (.leaf i)) :
    fs.nlink i = 1 ↔ ∀ q, fs.node q = some (.leaf i) → q = p := by
  rw [nlink, Finset.card_eq_one]
  constructor
  · rintro ⟨r, hr⟩ q hq
    rw [← mem_linkPaths, hr, Finset.mem_singleton] at hq h
    rw [hq, h]
  · intro honly
    refine ⟨p, ?_⟩
    ext q
    rw [mem_linkPaths, Finset.mem_singleton]
    exact ⟨honly q, fun hq => hq ▸ h⟩

end FileSystem

/-! ## Outcomes -/

/-- The state after the node at `p` has gone. -/
structure Removed (fs fs' : FileSystem) (p : Path) : Prop where
  gone : fs'.node p = none
  parent : fs'.untimed (parentDir p) = fs.untimed (parentDir p)
  other : ∀ q, q ≠ p → q ≠ parentDir p → fs'.node q = fs.node q
  inode : fs'.inode = fs.inode
  nextIno : fs'.nextIno = fs.nextIno

theorem Removed.untimed {fs fs' : FileSystem} {p q : Path} (h : Removed fs fs' p) (hq : q ≠ p) :
    fs'.untimed q = fs.untimed q := by
  by_cases hparent : q = parentDir p
  · rw [hparent]
    exact h.parent
  · exact FileSystem.untimed_eq_of_node (h.other q hq hparent)

theorem parentDir_ne {p : Path} (h : p ≠ []) : parentDir p ≠ p := by
  intro heq
  have hlen := congrArg List.length heq
  have hpos := List.length_pos_of_ne_nil h
  simp only [parentDir, List.length_dropLast] at hlen
  omega

theorem FileSystem.erase_removed {fs : FileSystem} {p : Path} (hp : p ≠ []) (now : Time)
    (hempty : ∀ q, q ≠ [] → parentDir q = p → fs.node q = none) :
    Removed fs ((fs.erase p hempty).touch now (parentDir p)) p where
  gone := by
    rw [touch_node_of_ne now (parentDir_ne hp).symm]
    simp [erase]
  parent := by
    rw [touch_untimed]
    exact untimed_eq_of_node (by simp [erase, parentDir_ne hp])
  other q hq hparent := by
    rw [touch_node_of_ne now hparent]
    simp [erase, hq]
  inode := rfl
  nextIno := rfl

theorem Removed.node_eq_none {fs fs' : FileSystem} {p q : Path} (h : Removed fs fs' p)
    (hq : fs.node q = none) : fs'.node q = none := by
  by_cases hself : q = p
  · rw [hself]
    exact h.gone
  · have hsame := h.untimed hself
    rwa [FileSystem.untimed, FileSystem.untimed, hq, Option.map_none, Option.map_eq_none_iff] at hsame

/-- What may have gone or come, and which directories may have been touched; all
else is as it was. -/
structure Keeps (changed touched : Set Path) (fs fs' : FileSystem) : Prop where
  node : ∀ q, q ∉ changed → q ∉ touched → fs'.node q = fs.node q
  untimed : ∀ q, q ∉ changed → fs'.untimed q = fs.untimed q
  inode : ∀ i, i < fs.nextIno → fs'.inode i = fs.inode i
  nextIno : fs.nextIno ≤ fs'.nextIno

namespace Keeps

variable {changed changed' touched touched' : Set Path} {fs fs' fs'' : FileSystem} {p : Path}

theorem refl (changed touched : Set Path) (fs : FileSystem) : Keeps changed touched fs fs :=
  ⟨fun _ _ _ => rfl, fun _ _ => rfl, fun _ _ => rfl, le_refl _⟩

theorem mono (h : Keeps changed touched fs fs') (hchanged : changed ⊆ changed')
    (htouched : touched ⊆ touched') : Keeps changed' touched' fs fs' :=
  ⟨fun q hq ht => h.node q (fun hc => hq (hchanged hc)) fun hc => ht (htouched hc),
    fun q hq => h.untimed q fun hc => hq (hchanged hc), h.inode, h.nextIno⟩

theorem trans (h : Keeps changed touched fs fs') (h' : Keeps changed touched fs' fs'') :
    Keeps changed touched fs fs'' :=
  ⟨fun q hq ht => (h'.node q hq ht).trans (h.node q hq ht),
    fun q hq => (h'.untimed q hq).trans (h.untimed q hq),
    fun i hi => (h'.inode i (hi.trans_le h.nextIno)).trans (h.inode i hi),
    h.nextIno.trans h'.nextIno⟩

end Keeps

theorem Removed.keeps {fs fs' : FileSystem} {p : Path} (h : Removed fs fs' p) :
    Keeps {p} {parentDir p} fs fs' :=
  ⟨fun q hq ht => h.other q hq ht, fun _ hq => h.untimed hq, fun _ _ => by rw [h.inode],
    h.nextIno.ge⟩

/-- The state after a new file has been made at `p`. -/
structure Created (fs fs' : FileSystem) (p : Path) (inode : Inode) : Prop where
  free : fs.node p = none
  node : fs'.node p = some (.leaf fs.nextIno)
  parent : fs'.untimed (parentDir p) = fs.untimed (parentDir p)
  other : ∀ q, q ≠ p → q ≠ parentDir p → fs'.node q = fs.node q
  inode : fs'.inode = Function.update fs.inode fs.nextIno inode
  nextIno : fs'.nextIno = fs.nextIno + 1

theorem Created.keeps {fs fs' : FileSystem} {p : Path} {inode : Inode}
    (h : Created fs fs' p inode) : Keeps {p} {parentDir p} fs fs' where
  node q hq ht := h.other q hq ht
  untimed q hq := by
    by_cases hparent : q = parentDir p
    · rw [hparent]
      exact h.parent
    · exact FileSystem.untimed_eq_of_node (h.other q hq hparent)
  inode i hi := by rw [h.inode, Function.update_of_ne hi.ne]
  nextIno := by
    rw [h.nextIno]
    exact Nat.le_succ _

theorem FileSystem.insertInode_ok {fs fs' : FileSystem} {now : Time} {p : Path} {inode : Inode}
    (h : fs.insertInode now p inode = .ok fs') : Created fs fs' p inode := by
  unfold insertInode insertNode at h
  split at h
  · rename_i hparent
    split at h
    · rename_i hfree
      have hne : parentDir p ≠ p := by
        intro heq
        obtain ⟨mode, mtime, hdir⟩ := hparent
        rw [heq, hfree] at hdir
        cases hdir
      obtain rfl := Except.ok.inj h
      refine ⟨hfree, ?_, ?_, fun q hq hqp => ?_, rfl, rfl⟩
      · rw [touch_node_of_ne now hne.symm]
        simp [insert, newInode]
      · rw [touch_untimed]
        exact untimed_eq_of_node (by simp [insert, newInode, hne])
      · rw [touch_node_of_ne now hqp]
        simp [insert, newInode, hq]
    · cases h
  · cases h

namespace Outcome

variable {faults : Faults} {umask : Mode} {fs fs' : FileSystem} {p : Path}

theorem lstat {x : Except Errno FileStat} (h : Outcome faults umask fs (.lstat p) x fs') :
    fs' = fs ∧ (x = fs.lstat p ∨ ∃ e, faults (.lstat p) e ∧ x = .error e) := by
  cases h with
  | run now => exact ⟨rfl, Or.inl rfl⟩
  | fault _ e he => exact ⟨rfl, Or.inr ⟨e, he, rfl⟩⟩

theorem openDirectory {x : Except Errno Unit}
    (h : Outcome faults umask fs (.openDirectory p) x fs') :
    fs' = fs ∧ (x = fs.openDirectory p ∨ ∃ e, faults (.openDirectory p) e ∧ x = .error e) := by
  cases h with
  | run now => exact ⟨rfl, Or.inl rfl⟩
  | fault _ e he => exact ⟨rfl, Or.inr ⟨e, he, rfl⟩⟩

theorem readlink {x : Except Errno Bytes} (h : Outcome faults umask fs (.readlink p) x fs') :
    fs' = fs ∧ (x = fs.readlink p ∨ ∃ e, faults (.readlink p) e ∧ x = .error e) := by
  cases h with
  | run now => exact ⟨rfl, Or.inl rfl⟩
  | fault _ e he => exact ⟨rfl, Or.inr ⟨e, he, rfl⟩⟩

/-- What a reading of a directory that was not refused gives: entries of the
directory, each once, and all of them if no error cut it short. -/
structure Reads (fs : FileSystem) (p : Path) (listing : Listing) : Prop where
  isDir : fs.IsDir p
  sub : listing.entries.Subperm (fs.entries p)
  all : listing.error = none → listing.entries.Perm (fs.entries p)

theorem readdir {x : Except Errno Listing} (h : Outcome faults umask fs (.readdir p) x fs') :
    fs' = fs ∧
      ((∃ listing, x = .ok listing ∧ Reads fs p listing ∧
        ∀ e, listing.error = some e → faults (.readdir p) e) ∨
      (∃ e, x = .error e ∧ (faults (.readdir p) e ∨ ¬ fs.IsDir p))) := by
  have hreaddir : ∀ listing, fs.readdir p = .ok listing →
      fs.IsDir p ∧ listing = ⟨fs.entries p, none⟩ := by
    intro listing hl
    unfold FileSystem.readdir at hl
    split at hl
    · rename_i mode mtime hnode
      exact ⟨⟨mode, mtime, hnode⟩, (Except.ok.inj hl).symm⟩
    · cases hl
    · cases hl
  cases h with
  | run now =>
      refine ⟨rfl, ?_⟩
      rcases hres : fs.readdir p with e | listing
      · refine Or.inr ⟨e, hres, Or.inr ?_⟩
        rintro ⟨mode, mtime, hdir⟩
        simp [FileSystem.readdir, hdir] at hres
      · obtain ⟨hdir, rfl⟩ := hreaddir listing hres
        exact Or.inl ⟨_, hres, ⟨hdir, List.Subperm.refl _, fun _ => List.Perm.refl _⟩, by simp⟩
  | listed _ hl hperm =>
      obtain ⟨hdir, rfl⟩ := hreaddir _ hl
      exact ⟨rfl, Or.inl ⟨_, rfl, ⟨hdir, hperm.subperm, fun _ => hperm⟩, by simp⟩⟩
  | cutShort _ hl hfault hsub =>
      obtain ⟨hdir, rfl⟩ := hreaddir _ hl
      exact ⟨rfl, Or.inl ⟨_, rfl, ⟨hdir, hsub, by simp⟩, by simpa using hfault⟩⟩
  | fault _ e he => exact ⟨rfl, Or.inr ⟨e, rfl, Or.inl he⟩⟩

theorem unlink {x : Except Errno Unit} (hp : p ≠ []) (h : Outcome faults umask fs (.unlink p) x fs') :
    (x = .ok () ∧ (∃ i, fs.node p = some (.leaf i)) ∧ Removed fs fs' p) ∨
    (fs' = fs ∧ ∃ e, x = .error e ∧
      (faults (.unlink p) e ∨ fs.IsDir p ∨ fs.node p = none)) := by
  cases h with
  | run now =>
      simp only [FileSystem.run, FileSystem.unlink]
      split
      · rename_i i hnode
        exact Or.inl ⟨rfl, ⟨i, hnode⟩, FileSystem.erase_removed hp now _⟩
      · rename_i mode mtime hnode
        exact Or.inr ⟨rfl, _, rfl, Or.inr (Or.inl ⟨mode, mtime, hnode⟩)⟩
      · rename_i hnode
        exact Or.inr ⟨rfl, _, rfl, Or.inr (Or.inr hnode)⟩
  | fault _ e he => exact Or.inr ⟨rfl, e, rfl, Or.inl he⟩

theorem rmdir {x : Except Errno Unit} (hp : p ≠ []) (h : Outcome faults umask fs (.rmdir p) x fs') :
    (x = .ok () ∧ fs.IsDir p ∧ fs.names p = [] ∧ Removed fs fs' p) ∨
    (fs' = fs ∧ ∃ e, x = .error e ∧
      (faults (.rmdir p) e ∨ ¬ fs.IsDir p ∨ fs.names p ≠ [])) := by
  cases h with
  | run now =>
      simp only [FileSystem.run, FileSystem.rmdir]
      split
      · rename_i mode mtime hnode
        by_cases hempty : fs.names p = []
        · rw [dif_pos hempty]
          exact Or.inl ⟨rfl, ⟨mode, mtime, hnode⟩, hempty, FileSystem.erase_removed hp now _⟩
        · rw [dif_neg hempty]
          exact Or.inr ⟨rfl, _, rfl, Or.inr (Or.inr hempty)⟩
      · rename_i i hnode
        refine Or.inr ⟨rfl, _, rfl, Or.inr (Or.inl ?_)⟩
        rintro ⟨mode, mtime, hdir⟩
        simp [hnode] at hdir
      · rename_i hnode
        refine Or.inr ⟨rfl, _, rfl, Or.inr (Or.inl ?_)⟩
        rintro ⟨mode, mtime, hdir⟩
        simp [hnode] at hdir
  | fault _ e he => exact Or.inr ⟨rfl, e, rfl, Or.inl he⟩

/-- `chmod` of a directory. -/
theorem chmod_directory {x : Except Errno Unit} {mode : Mode} (hdir : fs.IsDir p)
    (h : Outcome faults umask fs (.chmod p mode) x fs') :
    fs'.inode = fs.inode ∧ fs'.nextIno = fs.nextIno ∧ (∀ q, q ≠ p → fs'.node q = fs.node q) ∧
    ((∃ mtime, x = .ok () ∧ fs'.node p = some (.directory mode mtime)) ∨
      (fs' = fs ∧ ∃ e, x = .error e ∧ faults (.chmod p mode) e)) := by
  obtain ⟨mode₀, mtime, hnode⟩ := hdir
  cases h with
  | run now =>
      simp only [FileSystem.run, FileSystem.chmod, hnode]
      refine ⟨rfl, rfl, fun q hq => ?_, Or.inl ⟨mtime, rfl, ?_⟩⟩
      · simp [FileSystem.commit, FileSystem.modifyDirectory, hq]
      · simp [FileSystem.commit, FileSystem.modifyDirectory, hnode]
  | fault _ e he => exact ⟨rfl, rfl, fun _ _ => rfl, Or.inr ⟨rfl, e, rfl, he⟩⟩

/-- Opening a lock file leaves the state alone or makes the file. -/
theorem openLock {x : Except Errno Nat} {mode : Mode}
    (h : Outcome faults umask fs (.openLock p mode) x fs') :
    ((∃ i, x = .ok i) ∧ (fs' = fs ∧ fs.node p ≠ none ∨ ∃ inode, Created fs fs' p inode)) ∨
    (fs' = fs ∧ ∃ e, x = .error e ∧ (faults (.openLock p mode) e ∨ fs.IsDir p ∨
      (∃ target i, fs.node p = some (.leaf i) ∧ (fs.inode i).kind = .symlink target) ∨
      ¬ fs.IsDir (parentDir p))) := by
  cases h with
  | run now =>
      simp only [FileSystem.run, FileSystem.openLock]
      split
      · rename_i mode mtime hnode
        exact Or.inr ⟨rfl, _, rfl, Or.inr (Or.inl ⟨mode, mtime, hnode⟩)⟩
      · rename_i i hnode
        split
        · rename_i target hkind
          exact Or.inr ⟨rfl, _, rfl, Or.inr (Or.inr (Or.inl ⟨target, i, hnode, hkind⟩))⟩
        · exact Or.inl ⟨⟨i, rfl⟩, Or.inl ⟨rfl, by simp [hnode]⟩⟩
      · rename_i hnode
        split
        · rename_i fs' hins
          exact Or.inl ⟨⟨_, rfl⟩, Or.inr ⟨_, FileSystem.insertInode_ok hins⟩⟩
        · rename_i e hins
          refine Or.inr ⟨rfl, e, rfl, Or.inr (Or.inr (Or.inr fun hparent => ?_))⟩
          have hparent' : FileSystem.IsDir (fs.newInode ⟨.regular [], mode &&& ~~~umask, now⟩)
              (parentDir p) := hparent
          have hnode' : (fs.newInode ⟨.regular [], mode &&& ~~~umask, now⟩).node p = none := hnode
          rw [FileSystem.insertInode, FileSystem.insertNode, dif_pos hparent', dif_pos hnode'] at hins
          cases hins
  | fault _ e he => exact Or.inr ⟨rfl, e, rfl, Or.inl he⟩

end Outcome

end Host
end Archinix
