import Archinix.Host.Changes

/-!
# Hard links

What `link` leaves, and `rename` of one link over another.
-/

namespace Archinix
namespace Host

open Util

namespace FileSystem

/-- What is at a path, but for the time of a directory and the number of an inode. -/
def content (fs : FileSystem) (p : Path) : Option (Mode ⊕ Inode) :=
  match fs.node p with
  | some (.directory mode _) => some (.inl mode)
  | some (.leaf i) => some (.inr (fs.inode i))
  | none => none

variable {fs fs' : FileSystem} {p q : Path} {i : Nat}

theorem content_leaf (h : fs.node p = some (.leaf i)) : fs.content p = some (.inr (fs.inode i)) := by
  simp [content, h]

theorem leaf_of_content {inode : Inode} (h : fs.content p = some (.inr inode)) :
    ∃ i, fs.node p = some (.leaf i) ∧ fs.inode i = inode := by
  unfold content at h
  split at h
  · cases h
  · rename_i i hnode
    exact ⟨i, hnode, Sum.inr.inj (Option.some.inj h)⟩
  · cases h

theorem directory_of_content {mode : Mode} (h : fs.content p = some (.inl mode)) :
    ∃ mtime, fs.node p = some (.directory mode mtime) := by
  unfold content at h
  split at h
  · rename_i mode' mtime hnode
    exact ⟨mtime, by rw [hnode, Sum.inl.inj (Option.some.inj h)]⟩
  · cases h
  · cases h

theorem content_eq_none : fs.content p = none ↔ fs.node p = none := by
  rcases h : fs.node p with - | ⟨mode, mtime⟩ | i <;> simp [content, h]

theorem isDir_iff_content : fs.IsDir p ↔ ∃ mode, fs.content p = some (.inl mode) := by
  constructor
  · rintro ⟨mode, mtime, hnode⟩
    exact ⟨mode, by simp [content, hnode]⟩
  · rintro ⟨mode, h⟩
    obtain ⟨mtime, hnode⟩ := directory_of_content h
    exact ⟨mode, mtime, hnode⟩

theorem content_of_untimed (hinode : fs'.inode = fs.inode) (h : fs'.untimed p = fs.untimed p) :
    fs'.content p = fs.content p := by
  unfold content
  rcases h₁ : fs'.node p with - | ⟨mode, mtime⟩ | i <;>
    rcases h₂ : fs.node p with - | ⟨mode', mtime'⟩ | j <;>
    simp_all [untimed, Node.untimed]

theorem content_touch (now : Time) : (fs.touch now q).content p = fs.content p :=
  content_of_untimed rfl (touch_untimed now)

end FileSystem

/-- The state after a link to an inode has been made at `p`. -/
structure Linked (fs fs' : FileSystem) (p : Path) (i : Nat) : Prop where
  free : fs.node p = none
  parent : fs.IsDir (parentDir p)
  node : fs'.node p = some (.leaf i)
  other : ∀ q, q ≠ p → q ≠ parentDir p → fs'.node q = fs.node q
  untimed : ∀ q, q ≠ p → fs'.untimed q = fs.untimed q
  inode : fs'.inode = fs.inode
  nextIno : fs'.nextIno = fs.nextIno

/-- The state after the link at `src`, to an inode, has been moved over the one at `dst`. -/
structure Replaced (fs fs' : FileSystem) (src dst : Path) (i : Nat) : Prop where
  ne : src ≠ dst
  node : fs'.node dst = some (.leaf i)
  gone : fs'.node src = none
  other : ∀ q, q ≠ src → q ≠ dst → q ≠ parentDir src → q ≠ parentDir dst → fs'.node q = fs.node q
  untimed : ∀ q, q ≠ src → q ≠ dst → fs'.untimed q = fs.untimed q
  inode : fs'.inode = fs.inode
  nextIno : fs'.nextIno = fs.nextIno

theorem Linked.content {fs fs' : FileSystem} {p q : Path} {i : Nat} (h : Linked fs fs' p i)
    (hq : q ≠ p) : fs'.content q = fs.content q :=
  FileSystem.content_of_untimed h.inode (h.untimed q hq)

theorem Linked.leaf {fs fs' : FileSystem} {p q : Path} {i j : Nat} (h : Linked fs fs' p i)
    (hq : fs.node q = some (.leaf j)) : fs'.node q = some (.leaf j) := by
  have hne : q ≠ p := by
    rintro rfl
    rw [h.free] at hq
    cases hq
  rwa [← FileSystem.untimed_eq_leaf, h.untimed q hne, FileSystem.untimed_eq_leaf]

theorem Replaced.content {fs fs' : FileSystem} {src dst q : Path} {i : Nat}
    (h : Replaced fs fs' src dst i) (hsrc : q ≠ src) (hdst : q ≠ dst) :
    fs'.content q = fs.content q :=
  FileSystem.content_of_untimed h.inode (h.untimed q hsrc hdst)

theorem Replaced.leaf {fs fs' : FileSystem} {src dst q : Path} {i j : Nat}
    (h : Replaced fs fs' src dst i) (hsrc : q ≠ src) (hdst : q ≠ dst) :
    fs'.node q = some (.leaf j) ↔ fs.node q = some (.leaf j) := by
  rw [← FileSystem.untimed_eq_leaf, h.untimed q hsrc hdst, FileSystem.untimed_eq_leaf]

namespace FileSystem

variable {fs fs' : FileSystem} {src dst p : Path} {i j : Nat} {now : Time}

theorem insertNode_leaf_ok {hino : ∀ j, Node.leaf i = .leaf j → j < fs.nextIno}
    (h : fs.insertNode now p (.leaf i) hino = .ok fs') : Linked fs fs' p i := by
  unfold insertNode at h
  split at h
  · rename_i hparent
    split at h
    · rename_i hfree
      have hne : parentDir p ≠ p := by
        intro heq
        obtain ⟨mode, mtime, hdir⟩ := hparent
        rw [heq, hfree] at hdir
        cases hdir
      obtain rfl := Except.ok.inj h
      refine ⟨hfree, hparent, ?_, fun q hq hqp => ?_, fun q hq => ?_, rfl, rfl⟩
      · rw [touch_node_of_ne now hne.symm]
        simp [insert]
      · rw [touch_node_of_ne now hqp]
        simp [insert, hq]
      · rw [touch_untimed]
        exact untimed_eq_of_node (by simp [insert, hq])
    · cases h
  · cases h

theorem insertNode_error {n : Node} {hino : ∀ j, n = .leaf j → j < fs.nextIno} {e : Errno}
    (h : fs.insertNode now p n hino = .error e) :
    ¬ fs.IsDir (parentDir p) ∨ (e = .eexist ∧ fs.node p ≠ none) := by
  unfold insertNode at h
  split at h
  · split at h
    · cases h
    · rename_i hfree
      exact Or.inr ⟨(Except.error.inj h).symm, hfree⟩
  · rename_i hparent
    exact Or.inl hparent

/-- Nothing keeps one link from being moved over another. -/
theorem rename_leaf (hsrc : fs.node src = some (.leaf i)) (hdst : fs.node dst = some (.leaf j))
    (hne : dst ≠ []) : ∃ fs', fs.rename now src dst = .ok fs' ∧
      ((i = j ∧ fs' = fs) ∨ Replaced fs fs' src dst i) := by
  by_cases hij : i = j
  · exact ⟨fs, by simp [rename, hsrc, hdst, hij], Or.inl ⟨hij, rfl⟩⟩
  · have hpaths : src ≠ dst := by
      rintro rfl
      rw [hsrc] at hdst
      cases hdst
      exact hij rfl
    have hleaf : ∀ {r : Path} {k : Nat}, fs.node r = some (.leaf k) → ∀ more, more ≠ [] →
        fs.node (r ++ more) = none := by
      intro r k hr more hmore
      by_contra hbelow
      obtain ⟨mode, mtime, hdir⟩ := isDir_of_below hmore hbelow
      rw [hr] at hdir
      cases hdir
    have hinside : ¬ src <+: dst := by
      rintro ⟨more, rfl⟩
      have hmore : more ≠ [] := by
        rintro rfl
        exact hpaths (List.append_nil src).symm
      rw [hleaf hsrc more hmore] at hdst
      cases hdst
    have houtside : ¬ dst <+: src := by
      rintro ⟨more, rfl⟩
      have hmore : more ≠ [] := by
        rintro rfl
        exact hpaths (List.append_nil dst)
      rw [hleaf hdst more hmore] at hsrc
      cases hsrc
    have hparent : fs.IsDir (parentDir dst) := fs.parent_dir dst hne (by simp [hdst])
    refine ⟨_, by rw [rename, hsrc, hdst]; simp only [if_neg hij]; rw [replace, dif_pos
      ⟨hparent, hne, hinside⟩], Or.inr ?_⟩
    have hmove : ∀ q, q ≠ src → q ≠ dst → (fs.move src dst hparent hne hinside).node q = fs.node q := by
      intro q hqs hqd
      simp only [move]
      split
      · rename_i hstarts
        obtain ⟨more, rfl⟩ := hstarts
        have hmore : more ≠ [] := by
          rintro rfl
          exact hqd (List.append_nil dst)
        rw [List.drop_left, hleaf hsrc more hmore, hleaf hdst more hmore]
      · split
        · rename_i hstarts
          obtain ⟨more, rfl⟩ := hstarts
          have hmore : more ≠ [] := by
            rintro rfl
            exact hqs (List.append_nil src)
          rw [hleaf hsrc more hmore]
        · rfl
    -- the times of both directories
    have hsrcDir : fs.IsDir (parentDir src) ∨ src = [] := by
      by_cases h : src = []
      · exact Or.inr h
      · exact Or.inl (fs.parent_dir src h (by simp [hsrc]))
    have hleafUntimed : ∀ {fs' : FileSystem} {q : Path}, fs'.untimed q = none ↔ fs'.node q = none := by
      intro fs' q
      simp [untimed]
    refine ⟨hpaths, ?_, ?_, fun q hqs hqd hps hpd => ?_, fun q hqs hqd => ?_, rfl, rfl⟩
    · rw [← untimed_eq_leaf, touch_untimed, touch_untimed, untimed_eq_leaf]
      simp [move, hsrc]
    · rw [← hleafUntimed, touch_untimed, touch_untimed, hleafUntimed]
      simp [move, houtside]
    · rw [touch_node_of_ne now hpd, touch_node_of_ne now hps]
      exact hmove q hqs hqd
    · rw [touch_untimed, touch_untimed]
      exact untimed_eq_of_node (hmove q hqs hqd)

end FileSystem

namespace Outcome

variable {faults : Faults} {umask : Mode} {fs fs' : FileSystem} {src dst p : Path}

theorem link {x : Except Errno Unit} (h : Outcome faults umask fs (.link src dst) x fs') :
    (x = .ok () ∧ ∃ i, fs.node src = some (.leaf i) ∧ Linked fs fs' dst i) ∨
    (fs' = fs ∧ ∃ e, x = .error e ∧ (faults (.link src dst) e ∨ fs.IsDir src ∨
      fs.node src = none ∨ ¬ fs.IsDir (parentDir dst) ∨ (e = .eexist ∧ fs.node dst ≠ none))) := by
  cases h with
  | run now =>
      simp only [FileSystem.run, FileSystem.link]
      split
      · rename_i i hnode
        generalize hins : fs.insertNode now dst (.leaf i) _ = r
        rcases r with e | fs'
        · refine Or.inr ⟨rfl, e, rfl, Or.inr (Or.inr (Or.inr ?_))⟩
          exact FileSystem.insertNode_error hins
        · exact Or.inl ⟨rfl, i, hnode, FileSystem.insertNode_leaf_ok hins⟩
      · rename_i mode mtime hnode
        exact Or.inr ⟨rfl, _, rfl, Or.inr (Or.inl ⟨mode, mtime, hnode⟩)⟩
      · rename_i hnode
        exact Or.inr ⟨rfl, _, rfl, Or.inr (Or.inr (Or.inl hnode))⟩
  | fault _ e he => exact Or.inr ⟨rfl, e, rfl, Or.inl he⟩

/-- A link that is moved over another goes away, unless both lead to one inode. -/
theorem rename_leaf {x : Except Errno Unit} {i j : Nat} (hsrc : fs.node src = some (.leaf i))
    (hdst : fs.node dst = some (.leaf j)) (hne : dst ≠ [])
    (h : Outcome faults umask fs (.rename src dst) x fs') :
    (x = .ok () ∧ ((i = j ∧ fs' = fs) ∨ Replaced fs fs' src dst i)) ∨
    (fs' = fs ∧ ∃ e, x = .error e ∧ faults (.rename src dst) e) := by
  cases h with
  | run now =>
      have hstep : ∃ fs'', fs.rename now src dst = .ok fs'' ∧
          ((i = j ∧ fs'' = fs) ∨ Replaced fs fs'' src dst i) := FileSystem.rename_leaf hsrc hdst hne
      obtain ⟨fs'', hrename, hafter⟩ := hstep
      refine Or.inl ?_
      simp only [FileSystem.run, hrename]
      exact ⟨rfl, hafter⟩
  | fault _ e he => exact Or.inr ⟨rfl, e, rfl, he⟩

/-- `utimens` of a directory. -/
theorem utimens_directory {x : Except Errno Unit} {mode : Mode} {mtime mtime' : Time}
    (hnode : fs.node p = some (.directory mode mtime))
    (h : Outcome faults umask fs (.utimens p mtime') x fs') :
    fs'.inode = fs.inode ∧ fs'.nextIno = fs.nextIno ∧ (∀ q, q ≠ p → fs'.node q = fs.node q) ∧
    ((x = .ok () ∧ fs'.node p = some (.directory mode mtime')) ∨
      (fs' = fs ∧ ∃ e, x = .error e ∧ faults (.utimens p mtime') e)) := by
  cases h with
  | run now =>
      simp only [FileSystem.run, FileSystem.utimens, hnode]
      refine ⟨rfl, rfl, fun q hq => ?_, Or.inl ⟨rfl, ?_⟩⟩
      · simp [FileSystem.commit, FileSystem.modifyDirectory, hq]
      · simp [FileSystem.commit, FileSystem.modifyDirectory, hnode]
  | fault _ e he => exact ⟨rfl, rfl, fun _ _ => rfl, Or.inr ⟨rfl, e, rfl, he⟩⟩

end Outcome

end Host
end Archinix
