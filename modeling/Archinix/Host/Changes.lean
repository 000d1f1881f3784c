import Archinix.Host.Labels

/-!
# Where a change is confined

`Confined` says which paths, directory times and inodes of a file system may have
changed; all else, and what is linked where, is as it was.  Then one statement for
each call that makes or alters nodes: the answer, and how the state after it comes
from the state before it.
-/

namespace Archinix
namespace Host

open Util

/-- Nothing has changed but nodes at `changed`, the times of directories in `touched`
and inodes in `inodes`, and new links lead to new inodes. -/
structure Confined (changed touched : Set Path) (inodes : Set Nat) (fs fs' : FileSystem) : Prop where
  node : ∀ q, q ∉ changed → q ∉ touched → fs'.node q = fs.node q
  untimed : ∀ q, q ∉ changed → fs'.untimed q = fs.untimed q
  link : ∀ q i, fs'.node q = some (.leaf i) → fs.node q = some (.leaf i) ∨ fs.nextIno ≤ i
  inode : ∀ i, i < fs.nextIno → i ∉ inodes → fs'.inode i = fs.inode i
  nextIno : fs.nextIno ≤ fs'.nextIno

namespace Confined

variable {changed changed' touched touched' : Set Path} {inodes inodes' : Set Nat}
  {fs fs' fs'' : FileSystem} {p q : Path}

theorem refl (changed touched : Set Path) (inodes : Set Nat) (fs : FileSystem) :
    Confined changed touched inodes fs fs :=
  ⟨fun _ _ _ => rfl, fun _ _ => rfl, fun _ _ h => Or.inl h, fun _ _ _ => rfl, le_refl _⟩

theorem mono (h : Confined changed touched inodes fs fs') (hchanged : changed ⊆ changed')
    (htouched : touched ⊆ changed' ∪ touched') (hinodes : inodes ⊆ inodes') :
    Confined changed' touched' inodes' fs fs' :=
  ⟨fun q hq ht => h.node q (fun hc => hq (hchanged hc)) fun hc => (htouched hc).elim hq ht,
    fun q hq => h.untimed q fun hc => hq (hchanged hc), h.link,
    fun i hi hni => h.inode i hi fun hc => hni (hinodes hc), h.nextIno⟩

theorem trans (h : Confined changed touched inodes fs fs')
    (h' : Confined changed touched inodes fs' fs'') : Confined changed touched inodes fs fs'' where
  node q hq ht := (h'.node q hq ht).trans (h.node q hq ht)
  untimed q hq := (h'.untimed q hq).trans (h.untimed q hq)
  link q i hi := by
    rcases h'.link q i hi with hi | hi
    · exact h.link q i hi
    · exact Or.inr (h.nextIno.trans hi)
  inode i hi hni := (h'.inode i (hi.trans_le h.nextIno) hni).trans (h.inode i hi hni)
  nextIno := h.nextIno.trans h'.nextIno

theorem shape (h : Confined changed touched inodes fs fs') (hq : q ∉ changed) :
    fs'.shape q = fs.shape q := FileSystem.shape_eq_of_untimed (h.untimed q hq)

theorem isDir_iff (h : Confined changed touched inodes fs fs') (hq : q ∉ changed) :
    fs'.IsDir q ↔ fs.IsDir q := FileSystem.isDir_iff_of_untimed (h.untimed q hq)

theorem node_eq_none_iff (h : Confined changed touched inodes fs fs') (hq : q ∉ changed) :
    fs'.node q = none ↔ fs.node q = none := by
  rw [← FileSystem.shape_eq_none, ← FileSystem.shape_eq_none, h.shape hq]

theorem leaf_iff (h : Confined changed touched inodes fs fs') (hq : q ∉ changed) {i : Nat} :
    fs'.node q = some (.leaf i) ↔ fs.node q = some (.leaf i) := by
  rw [← FileSystem.shape_eq_leaf, ← FileSystem.shape_eq_leaf, h.shape hq]

/-- What is not changed keeps its label, unless it is a link to an inode that is. -/
theorem label (h : Confined changed touched inodes fs fs') (hq : q ∉ changed)
    (hinodes : ∀ i, fs.node q = some (.leaf i) → i ∉ inodes) : fs'.label q = fs.label q := by
  have hshape := h.shape hq
  unfold FileSystem.label
  rcases hnode : fs.node q with - | ⟨mode, mtime⟩ | i
  · rw [(h.node_eq_none_iff hq).mpr hnode]
  · obtain ⟨mode', mtime', hdir⟩ := (h.isDir_iff hq).mpr ⟨mode, mtime, hnode⟩
    rw [hdir]
  · rw [(h.leaf_iff hq).mpr hnode]
    dsimp only
    rw [h.inode i (fs.ino_lt q i hnode) (hinodes i hnode)]

end Confined

namespace FileSystem

variable {fs : FileSystem} {p q : Path} {i j : Nat} {f : Inode → Inode}

@[simp] theorem modifyInode_node : (fs.modifyInode i f).node = fs.node := rfl

@[simp] theorem modifyInode_nextIno : (fs.modifyInode i f).nextIno = fs.nextIno := rfl

@[simp] theorem modifyInode_inode_self : (fs.modifyInode i f).inode i = f (fs.inode i) := by
  simp [modifyInode]

theorem modifyInode_inode_ne (h : j ≠ i) : (fs.modifyInode i f).inode j = fs.inode j := by
  simp [modifyInode, h]

theorem modifyInode_confined (changed touched : Set Path) :
    Confined changed touched {i} fs (fs.modifyInode i f) :=
  ⟨fun _ _ _ => rfl, fun _ _ => rfl, fun _ _ h => Or.inl h,
    fun _ _ hj => modifyInode_inode_ne hj, le_refl _⟩

section Directory

variable {g : Mode → Time → Mode × Time}

@[simp] theorem modifyDirectory_inode : (fs.modifyDirectory p g).inode = fs.inode := rfl

@[simp] theorem modifyDirectory_nextIno : (fs.modifyDirectory p g).nextIno = fs.nextIno := rfl

theorem modifyDirectory_node_ne (h : q ≠ p) : (fs.modifyDirectory p g).node q = fs.node q := by
  simp [modifyDirectory, h]

theorem modifyDirectory_shape : (fs.modifyDirectory p g).shape q = fs.shape q := by
  by_cases h : q = p
  · subst h
    rcases hnode : fs.node q with - | ⟨mode, mtime⟩ | i <;>
      simp [shape, modifyDirectory, hnode, Node.link]
  · simp [shape, modifyDirectory_node_ne h]

theorem modifyDirectory_confined (touched : Set Path) (inodes : Set Nat) :
    Confined {p} touched inodes fs (fs.modifyDirectory p g) where
  node q hq _ := modifyDirectory_node_ne hq
  untimed q hq := untimed_eq_of_node (modifyDirectory_node_ne hq)
  link q i hi := by
    rw [← shape_eq_leaf, modifyDirectory_shape, shape_eq_leaf] at hi
    exact Or.inl hi
  inode _ _ _ := rfl
  nextIno := le_refl _

/-- A change of a directory's metadata changes no label. -/
theorem modifyDirectory_label : (fs.modifyDirectory p g).label q = fs.label q := by
  by_cases h : q = p
  · subst h
    rcases hnode : fs.node q with - | ⟨mode, mtime⟩ | i <;>
      simp [label, modifyDirectory, hnode]
  · simp [label, modifyDirectory_node_ne h]

end Directory

end FileSystem

theorem Created.confined {fs fs' : FileSystem} {p : Path} {inode : Inode}
    (h : Created fs fs' p inode) : Confined {p} {parentDir p} ∅ fs fs' where
  node := h.keeps.node
  untimed := h.keeps.untimed
  link q i hi := by
    by_cases hq : q = p
    · rw [hq, h.node] at hi
      cases hi
      exact Or.inr (le_refl _)
    · rw [← FileSystem.untimed_eq_leaf, h.keeps.untimed q hq, FileSystem.untimed_eq_leaf] at hi
      exact Or.inl hi
  inode i hi _ := h.keeps.inode i hi
  nextIno := h.keeps.nextIno

theorem Removed.confined {fs fs' : FileSystem} {p : Path} (h : Removed fs fs' p) :
    Confined {p} {parentDir p} ∅ fs fs' where
  node := h.keeps.node
  untimed := h.keeps.untimed
  link q i hi := by
    by_cases hq : q = p
    · rw [hq, h.gone] at hi
      cases hi
    · rw [← FileSystem.untimed_eq_leaf, h.untimed hq, FileSystem.untimed_eq_leaf] at hi
      exact Or.inl hi
  inode i hi _ := h.keeps.inode i hi
  nextIno := h.keeps.nextIno

/-- The state after a new directory has been made at `p`. -/
structure Made (fs fs' : FileSystem) (p : Path) (mode : Mode) : Prop where
  free : fs.node p = none
  node : ∃ mtime, fs'.node p = some (.directory mode mtime)
  parent : fs'.untimed (parentDir p) = fs.untimed (parentDir p)
  other : ∀ q, q ≠ p → q ≠ parentDir p → fs'.node q = fs.node q
  inode : fs'.inode = fs.inode
  nextIno : fs'.nextIno = fs.nextIno

namespace Made

variable {fs fs' : FileSystem} {p q : Path} {mode : Mode}

theorem isDir (h : Made fs fs' p mode) : fs'.IsDir p := by
  obtain ⟨mtime, hnode⟩ := h.node
  exact ⟨mode, mtime, hnode⟩

theorem untimed (h : Made fs fs' p mode) (hq : q ≠ p) : fs'.untimed q = fs.untimed q := by
  by_cases hparent : q = parentDir p
  · rw [hparent]
    exact h.parent
  · exact FileSystem.untimed_eq_of_node (h.other q hq hparent)

theorem confined (h : Made fs fs' p mode) : Confined {p} {parentDir p} ∅ fs fs' where
  node q hq ht := h.other q hq ht
  untimed q hq := h.untimed hq
  link q i hi := by
    by_cases hq : q = p
    · obtain ⟨mtime, hnode⟩ := h.node
      rw [hq, hnode] at hi
      cases hi
    · rw [← FileSystem.untimed_eq_leaf, h.untimed hq, FileSystem.untimed_eq_leaf] at hi
      exact Or.inl hi
  inode _ _ _ := by rw [h.inode]
  nextIno := h.nextIno.ge

end Made

theorem FileSystem.mkdir_ok {fs fs' : FileSystem} {now : Time} {p : Path} {mode : Mode}
    (h : fs.mkdir now p mode = .ok fs') : Made fs fs' p mode := by
  unfold mkdir insertNode at h
  split at h
  · rename_i hparent
    split at h
    · rename_i hfree
      have hne : parentDir p ≠ p := by
        intro heq
        obtain ⟨mode, mtime, hdir⟩ := hparent
        rw [heq, hfree] at hdir
        cases hdir
      obtain rfl := Except.ok.inj h
      refine ⟨hfree, ⟨now, ?_⟩, ?_, fun q hq hqp => ?_, rfl, rfl⟩
      · rw [touch_node_of_ne now hne.symm]
        simp [insert]
      · rw [touch_untimed]
        exact untimed_eq_of_node (by simp [insert, hne])
      · rw [touch_node_of_ne now hqp]
        simp [insert, hq]
    · cases h
  · cases h

namespace Outcome

variable {faults : Faults} {umask : Mode} {fs fs' : FileSystem} {p : Path} {fd : Nat}

/-- An insertion that was refused had no place for the node. -/
theorem insertNode_error {now : Time} {n : Node} {hino : ∀ i, n = .leaf i → i < fs.nextIno}
    {e : Errno} (h : fs.insertNode now p n hino = .error e) :
    fs.node p ≠ none ∨ ¬ fs.IsDir (parentDir p) := by
  unfold FileSystem.insertNode at h
  split at h
  · split at h
    · cases h
    · rename_i hfree
      exact Or.inl hfree
  · rename_i hparent
    exact Or.inr hparent

theorem insertInode_error {now : Time} {inode : Inode} {e : Errno}
    (h : fs.insertInode now p inode = .error e) : fs.node p ≠ none ∨ ¬ fs.IsDir (parentDir p) := by
  unfold FileSystem.insertInode at h
  have hrefused := insertNode_error h
  exact hrefused

theorem mkdir {x : Except Errno Unit} {mode : Mode}
    (h : Outcome faults umask fs (.mkdir p mode) x fs') :
    (x = .ok () ∧ Made fs fs' p (mode &&& ~~~umask)) ∨
    (fs' = fs ∧ ∃ e, x = .error e ∧
      (faults (.mkdir p mode) e ∨ fs.node p ≠ none ∨ ¬ fs.IsDir (parentDir p))) := by
  cases h with
  | run now =>
      simp only [FileSystem.run, FileSystem.commit]
      rcases hmk : fs.mkdir now p (mode &&& ~~~umask) with e | fs'
      · exact Or.inr ⟨rfl, e, rfl, Or.inr (insertNode_error hmk)⟩
      · exact Or.inl ⟨rfl, FileSystem.mkdir_ok hmk⟩
  | fault _ e he => exact Or.inr ⟨rfl, e, rfl, Or.inl he⟩

theorem create {x : Except Errno Nat} {mode : Mode}
    (h : Outcome faults umask fs (.create p mode) x fs') :
    (x = .ok fs.nextIno ∧ ∃ now, Created fs fs' p ⟨.regular [], mode &&& ~~~umask, now⟩) ∨
    (fs' = fs ∧ ∃ e, x = .error e ∧
      (faults (.create p mode) e ∨ fs.node p ≠ none ∨ ¬ fs.IsDir (parentDir p))) := by
  cases h with
  | run now =>
      simp only [FileSystem.run]
      split
      · rename_i fs' hins
        exact Or.inl ⟨rfl, now, FileSystem.insertInode_ok hins⟩
      · rename_i e hins
        exact Or.inr ⟨rfl, e, rfl, Or.inr (insertInode_error hins)⟩
  | fault _ e he => exact Or.inr ⟨rfl, e, rfl, Or.inl he⟩

theorem symlink {x : Except Errno Unit} {target : Bytes}
    (h : Outcome faults umask fs (.symlink target p) x fs') :
    (x = .ok () ∧ ∃ now, Created fs fs' p ⟨.symlink target, 0o777, now⟩) ∨
    (fs' = fs ∧ ∃ e, x = .error e ∧
      (faults (.symlink target p) e ∨ fs.node p ≠ none ∨ ¬ fs.IsDir (parentDir p))) := by
  cases h with
  | run now =>
      simp only [FileSystem.run, FileSystem.commit]
      rcases hins : fs.insertInode now p ⟨.symlink target, 0o777, now⟩ with e | fs'
      · exact Or.inr ⟨rfl, e, rfl, Or.inr (insertInode_error hins)⟩
      · exact Or.inl ⟨rfl, now, FileSystem.insertInode_ok hins⟩
  | fault _ e he => exact Or.inr ⟨rfl, e, rfl, Or.inl he⟩

theorem write {x : Except Errno Unit} {data : Bytes}
    (h : Outcome faults umask fs (.write fd data) x fs') :
    (x = .ok () ∧ ∃ now, fs' = fs.write now fd data) ∨
    ((fs' = fs ∨ ∃ now written, fs' = fs.write now fd written) ∧ ∃ e, x = .error e ∧
      faults (.write fd data) e) := by
  cases h with
  | run now => exact Or.inl ⟨rfl, now, rfl⟩
  | fault _ e he => exact Or.inr ⟨Or.inl rfl, e, rfl, he⟩
  | partialWrite now _ e he hwritten => exact Or.inr ⟨Or.inr ⟨now, _, rfl⟩, e, rfl, he⟩

theorem fstat {x : Except Errno FileStat} (h : Outcome faults umask fs (.fstat fd) x fs') :
    fs' = fs ∧ (x = .ok (fs.statInode fd) ∨ ∃ e, faults (.fstat fd) e ∧ x = .error e) := by
  cases h with
  | run now => exact ⟨rfl, Or.inl rfl⟩
  | fault _ e he => exact ⟨rfl, Or.inr ⟨e, he, rfl⟩⟩

theorem fchmod {x : Except Errno Unit} {mode : Mode}
    (h : Outcome faults umask fs (.fchmod fd mode) x fs') :
    (x = .ok () ∧ fs' = fs.modifyInode fd fun inode => { inode with mode := mode }) ∨
    (fs' = fs ∧ ∃ e, x = .error e ∧ faults (.fchmod fd mode) e) := by
  cases h with
  | run now => exact Or.inl ⟨rfl, rfl⟩
  | fault _ e he => exact Or.inr ⟨rfl, e, rfl, he⟩

theorem futimens {x : Except Errno Unit} {mtime : Time}
    (h : Outcome faults umask fs (.futimens fd mtime) x fs') :
    (x = .ok () ∧ fs' = fs.modifyInode fd fun inode => { inode with mtime := mtime }) ∨
    (fs' = fs ∧ ∃ e, x = .error e ∧ faults (.futimens fd mtime) e) := by
  cases h with
  | run now => exact Or.inl ⟨rfl, rfl⟩
  | fault _ e he => exact Or.inr ⟨rfl, e, rfl, he⟩

/-- `chmod` changes the metadata of a directory, or an inode that is no symlink. -/
theorem chmod {x : Except Errno Unit} {mode : Mode}
    (h : Outcome faults umask fs (.chmod p mode) x fs') :
    (x = .ok () ∧ fs.IsDir p ∧ fs' = fs.modifyDirectory p fun _ mtime => (mode, mtime)) ∨
    (x = .ok () ∧ ∃ i, fs.node p = some (.leaf i) ∧
      fs' = fs.modifyInode i fun inode => { inode with mode := mode }) ∨
    (fs' = fs ∧ ∃ e, x = .error e ∧ (faults (.chmod p mode) e ∨ fs.node p = none ∨
      ∃ i target, fs.node p = some (.leaf i) ∧ (fs.inode i).kind = .symlink target)) := by
  cases h with
  | run now =>
      simp only [FileSystem.run, FileSystem.chmod]
      split
      · rename_i mode' mtime hnode
        exact Or.inl ⟨rfl, ⟨mode', mtime, hnode⟩, rfl⟩
      · rename_i i hnode
        split
        · rename_i target hkind
          exact Or.inr (Or.inr ⟨rfl, _, rfl, Or.inr (Or.inr ⟨i, target, hnode, hkind⟩)⟩)
        · exact Or.inr (Or.inl ⟨rfl, i, hnode, rfl⟩)
      · rename_i hnode
        exact Or.inr (Or.inr ⟨rfl, _, rfl, Or.inr (Or.inl hnode)⟩)
  | fault _ e he => exact Or.inr (Or.inr ⟨rfl, e, rfl, Or.inl he⟩)

theorem utimens {x : Except Errno Unit} {mtime : Time}
    (h : Outcome faults umask fs (.utimens p mtime) x fs') :
    (x = .ok () ∧ fs.IsDir p ∧ fs' = fs.modifyDirectory p fun mode _ => (mode, mtime)) ∨
    (x = .ok () ∧ ∃ i, fs.node p = some (.leaf i) ∧
      fs' = fs.modifyInode i fun inode => { inode with mtime := mtime }) ∨
    (fs' = fs ∧ ∃ e, x = .error e ∧ (faults (.utimens p mtime) e ∨ fs.node p = none)) := by
  cases h with
  | run now =>
      simp only [FileSystem.run, FileSystem.utimens]
      split
      · rename_i mode mtime' hnode
        exact Or.inl ⟨rfl, ⟨mode, mtime', hnode⟩, rfl⟩
      · rename_i i hnode
        exact Or.inr (Or.inl ⟨rfl, i, hnode, rfl⟩)
      · rename_i hnode
        exact Or.inr (Or.inr ⟨rfl, _, rfl, Or.inr hnode⟩)
  | fault _ e he => exact Or.inr (Or.inr ⟨rfl, e, rfl, Or.inl he⟩)

end Outcome

end Host
end Archinix
