import Archinix.Store.Operations
import Archinix.Host.Outcomes

/-!
# Deleting a path

`_deletePath` and `deletePath` of `file-system.cc`.  A recursion of the source
over a directory tree is unrolled to a `depth` here.  The count of bytes freed,
which is only reported, is left out.

Whatever fails on the way, only nodes at and below the path go (`Pruned`), and
when nothing fails all of them do.

A call through the descriptor of a directory that another process has replaced
meanwhile fails; failures of any call are among the outcomes considered.
-/

namespace Archinix
namespace Store

open Foundation Util Host

/-- `maybeLstat` and `maybeFstatat`. -/
def maybeLstat (path : Path) : Action (Option FileStat) :=
  ask (.sys (.lstat path)) fun
    | .ok st => .ok (some st)
    | .error e =>
        if e = .enoent ∨ e = .enotdir then .ok none
        else .error (sysError "getting status of %s" [CanonPath.abs path] e)

/-- `S_IRUSR | S_IWUSR | S_IXUSR`. -/
def permMask : Mode := 0o700

/-- Make the directory accessible. -/
def makeAccessible (path : Path) (st : FileStat) : Action Unit :=
  if st.mode &&& permMask ≠ permMask then
    sys (.chmod path (st.mode ||| permMask)) (sysError "fchmodat2 %s" [CanonPath.abs path])
  else
    pure ()

/-- The loop of `_deletePath` over a directory. -/
def deleteEntries (child : Path → Option Exception → Action (Option Exception)) (path : Path)
    (ex : Option Exception) : Action (Option Exception) := do
  let listing ← sys (.readdir path) (sysError "opening directory %1%" [CanonPath.abs path])
  let ex ← listing.entries.foldlM (fun ex dirent => do
    checkInterrupt
    child (path ++ [dirent.name]) ex) ex
  match listing.error with
  | some e => throw (sysError "reading directory %1%" [CanonPath.abs path] e)
  | none => pure ex

/-- What `_deletePath` does to a directory before it removes it. -/
def deleteBelow (child : Path → Option Exception → Action (Option Exception)) (path : Path)
    (st : FileStat) (ex : Option Exception) : Action (Option Exception) :=
  if st.type = .tDirectory then do
    makeAccessible path st
    deleteEntries child path ex
  else
    pure ex

def unlinkat (path : Path) (isDir : Bool) : Action (Except Errno Unit) :=
  if isDir then trySys (.rmdir path) else trySys (.unlink path)

/-- The first failure to unlink something is kept. -/
def keepFirst (path : Path) (ex : Option Exception) : Except Errno Unit → Option Exception
  | .ok () => ex
  | .error e =>
      if e = .enoent then ex
      else some (ex.getD (sysError "cannot unlink %1%" [CanonPath.abs path] e))

/-- The recursive `_deletePath`; `ex` is the first failure to unlink something. -/
def deletePath_ : (depth : Nat) → (path : Path) → (ex : Option Exception) →
    Action (Option Exception)
  | 0, _, _ => .spin
  | depth + 1, path, ex => do
      checkInterrupt
      match ← maybeLstat path with
      | none => pure ex
      | some st =>
          let ex ← deleteBelow (deletePath_ depth) path st ex
          let r ← unlinkat path (st.type = .tDirectory)
          return keepFirst path ex r

def deletePath (depth : Nat) (path : Path) : Action Unit := do
  match ← trySys (.openDirectory (parentDir path)) with
  | .error e =>
      if e = .enoent then pure ()
      else throw (sysError "opening directory %s" [CanonPath.abs (parentDir path)] e)
  | .ok () =>
      if let some e := ← deletePath_ depth path none then
        throw e

/-! ## What it leaves -/

/-- Nodes have gone at and below the path, and nothing else has happened. -/
structure Pruned (fs fs' : FileSystem) (path : Path) : Prop where
  outside : ∀ q, ¬ path <+: q → q ≠ parentDir path → fs'.node q = fs.node q
  parent : fs'.untimed (parentDir path) = fs.untimed (parentDir path)
  below : ∀ q, path <+: q → fs.GoneOrSame fs' q
  inode : fs'.inode = fs.inode
  nextIno : fs'.nextIno = fs.nextIno

namespace Pruned

variable {fs fs' fs'' : FileSystem} {path : Path}

theorem refl (fs : FileSystem) (path : Path) : Pruned fs fs path :=
  ⟨fun _ _ _ => rfl, rfl, fun _ _ => Or.inr rfl, rfl, rfl⟩

theorem trans (h : Pruned fs fs' path) (h' : Pruned fs' fs'' path) : Pruned fs fs'' path where
  outside q hq hparent := (h'.outside q hq hparent).trans (h.outside q hq hparent)
  parent := h'.parent.trans h.parent
  below q hq := (h.below q hq).trans (h'.below q hq)
  inode := h'.inode.trans h.inode
  nextIno := h'.nextIno.trans h.nextIno

theorem not_prefix_parentDir (hp : path ≠ []) : ¬ path <+: parentDir path := by
  intro h
  have hlen := h.length_le
  have hpos := List.length_pos_of_ne_nil hp
  simp only [parentDir, List.length_dropLast] at hlen
  omega

/-- Pruning an entry prunes the directory. -/
theorem ofChild (hp : path ≠ []) {name : Name} (h : Pruned fs fs' (path ++ [name])) :
    Pruned fs fs' path where
  outside q hq hparent := by
    refine h.outside q (fun hchild => hq ((List.prefix_append _ _).trans hchild)) ?_
    rw [parentDir_append]
    rintro rfl
    exact hq (List.prefix_refl _)
  parent := by
    refine FileSystem.untimed_eq_of_node (h.outside _ (fun hchild => ?_) ?_)
    · exact not_prefix_parentDir hp ((List.prefix_append _ _).trans hchild)
    · rw [parentDir_append]
      exact parentDir_ne hp
  below q hq := by
    by_cases hchild : path ++ [name] <+: q
    · exact h.below q hchild
    · refine Or.inr (FileSystem.shape_eq_of_untimed ?_)
      by_cases hself : q = path
      · have hparent := h.parent
        rwa [parentDir_append, ← hself] at hparent
      · exact FileSystem.untimed_eq_of_node
          (h.outside q hchild (by rwa [parentDir_append]))
  inode := h.inode
  nextIno := h.nextIno

theorem ofRemoved (h : Removed fs fs' path) : Pruned fs fs' path where
  outside q hq hparent := h.other q (fun hself => hq (hself ▸ List.prefix_refl _)) hparent
  parent := h.parent
  below q hq := by
    by_cases hself : q = path
    · exact Or.inl (hself ▸ h.gone)
    · exact Or.inr (FileSystem.shape_eq_of_untimed (h.untimed hself))
  inode := h.inode
  nextIno := h.nextIno

/-- Nothing appears. -/
theorem untimed_of_not_prefix (h : Pruned fs fs' path) {q : Path} (hq : ¬ path <+: q) :
    fs'.untimed q = fs.untimed q := by
  by_cases hparent : q = parentDir path
  · rw [hparent]
    exact h.parent
  · exact FileSystem.untimed_eq_of_node (h.outside q hq hparent)

theorem goneOrSame (h : Pruned fs fs' path) (q : Path) : fs.GoneOrSame fs' q := by
  by_cases hbelow : path <+: q
  · exact h.below q hbelow
  · exact FileSystem.goneOrSame_of_untimed (h.untimed_of_not_prefix hbelow)

theorem node_eq_none (h : Pruned fs fs' path) {q : Path} (hq : fs.node q = none) :
    fs'.node q = none := (h.goneOrSame q).node_eq_none hq

end Pruned

/-- Every node at or below the path is less than `depth` levels below it. -/
def WithinDepth (fs : FileSystem) (path : Path) (depth : Nat) : Prop :=
  0 < depth ∧ ∀ q, path <+: q → fs.node q ≠ none → q.length < path.length + depth

theorem WithinDepth.pruned {fs fs' : FileSystem} {path root : Path} {depth : Nat}
    (h : WithinDepth fs path depth) (hpruned : Pruned fs fs' root) : WithinDepth fs' path depth :=
  ⟨h.1, fun q hq hnode => h.2 q hq fun hnone => hnode (hpruned.node_eq_none hnone)⟩

theorem WithinDepth.child {fs : FileSystem} {path : Path} {depth : Nat}
    (h : WithinDepth fs path (depth + 1)) {name : Name} (hname : fs.node (path ++ [name]) ≠ none) :
    WithinDepth fs (path ++ [name]) depth := by
  have hlen := h.2 _ (List.prefix_append _ _) hname
  simp only [List.length_append, List.length_singleton] at hlen
  refine ⟨by omega, fun q hq hnode => ?_⟩
  have := h.2 q ((List.prefix_append _ _).trans hq) hnode
  simp only [List.length_append, List.length_singleton]
  omega

section Spec

variable {env : Environment} {config : LocalStoreConfig} {deep : Prop} {w : World}

/-- The postcondition of `_deletePath` and `deletePath`. -/
structure Deleted {α : Type} (env : Environment) (w : World) (path : Path) (normal : α)
    (r : Except Exception α) (w' : World) : Prop where
  db : w'.db = w.db
  pruned : Pruned w.fs w'.fs path
  complete : env.Reliable → r = .ok normal ∧ w'.fs.node path = none

theorem wp_maybeLstat {path : Path} {Q : Except Exception (Option FileStat) → World → Prop} :
    (maybeLstat path).wp (exec env config) deep Q w ↔
      ∀ x fs, Outcome env.faults env.umask w.fs (.lstat path) x fs →
        Q (match x with
          | .ok st => .ok (some st)
          | .error e =>
              if e = .enoent ∨ e = .enotdir then .ok none
              else .error (sysError "getting status of %s" [CanonPath.abs path] e))
          { w with fs := fs } :=
  ⟨fun h x fs hout => h x _ ⟨fs, hout, rfl⟩, fun h x _ ⟨fs, hout, hw⟩ => hw ▸ h x fs hout⟩

theorem maybeLstat_spec {path : Path} :
    (maybeLstat path).wp (exec env config) deep (fun r w' => w' = w ∧
      (r = .ok ((w.fs.node path).map w.fs.statNode) ∨
        ∃ e, env.faults (.lstat path) e ∧ (r = .ok none ∨ ∃ err, r = .error err))) w := by
  rw [wp_maybeLstat]
  intro x fs hout
  obtain ⟨rfl, rfl | ⟨e, hfault, rfl⟩⟩ := hout.lstat
  · refine ⟨rfl, Or.inl ?_⟩
    rcases hnode : w.fs.node path with - | n
    · have hmissing : w.fs.missing path = .enoent ∨ w.fs.missing path = .enotdir := by
        unfold FileSystem.missing
        split <;> simp
      simp [FileSystem.lstat, hnode, hmissing]
    · simp [FileSystem.lstat, hnode]
  · refine ⟨rfl, Or.inr ⟨e, hfault, ?_⟩⟩
    by_cases he : e = .enoent ∨ e = .enotdir
    · exact Or.inl (if_pos he)
    · exact Or.inr ⟨_, if_neg he⟩

theorem makeAccessible_spec {path : Path} {st : FileStat} (hp : path ≠ []) (hdir : w.fs.IsDir path) :
    (makeAccessible path st).wp (exec env config) deep (fun r w' =>
      w'.db = w.db ∧ Pruned w.fs w'.fs path ∧ w'.fs.IsDir path ∧ (env.Reliable → r = .ok ())) w := by
  have hsame : w.db = w.db ∧ Pruned w.fs w.fs path ∧ w.fs.IsDir path :=
    ⟨rfl, Pruned.refl _ _, hdir⟩
  unfold makeAccessible
  split
  · rw [wp_sys]
    intro x fs hout
    obtain ⟨hinode, hnext, hother, hcase⟩ := hout.chmod_directory hdir
    rcases hcase with ⟨mtime, rfl, hnode⟩ | ⟨rfl, e, rfl, hfault⟩
    · refine ⟨rfl, ⟨fun q hq _ => hother q fun hself => hq (hself ▸ List.prefix_refl _),
        FileSystem.untimed_eq_of_node (hother _ (parentDir_ne hp)), fun q _ => Or.inr ?_, hinode,
        hnext⟩, ⟨_, mtime, hnode⟩, fun _ => rfl⟩
      by_cases hself : q = path
      · subst hself
        obtain ⟨mode, mtime', hold⟩ := hdir
        simp [FileSystem.shape, hnode, hold, Node.link]
      · exact FileSystem.shape_eq_of_node (hother q hself)
    · exact ⟨rfl, hsame.2.1, hdir, fun hrel => absurd hfault (hrel.faults _ _)⟩
  · exact ⟨rfl, hsame.2.1, hdir, fun _ => rfl⟩

/-- The call that removes the node itself. -/
theorem unlinkat_spec {path : Path} {isDir : Bool} (hp : path ≠ []) (ex : Option Exception) :
    (unlinkat path isDir).wp (exec env config) deep (fun r w' => ∃ x, r = .ok x ∧ w'.db = w.db ∧
      Pruned w.fs w'.fs path ∧
      (env.Reliable → (isDir = true → w.fs.IsDir path ∧ w.fs.names path = []) →
        (isDir = false → ∃ i, w.fs.node path = some (.leaf i)) →
        keepFirst path ex x = ex ∧ w'.fs.node path = none)) w := by
  unfold unlinkat
  cases isDir with
  | true =>
      rw [if_pos rfl, wp_trySys]
      intro x fs hout
      rcases hout.rmdir hp with ⟨rfl, -, -, hremoved⟩ | ⟨rfl, e, rfl, hfail⟩
      · exact ⟨_, rfl, rfl, .ofRemoved hremoved, fun _ _ _ => ⟨rfl, hremoved.gone⟩⟩
      · refine ⟨_, rfl, rfl, .refl _ _, fun hrel hdir _ => ?_⟩
        rcases hfail with hfault | hnot | hne
        · exact absurd hfault (hrel.faults _ _)
        · exact absurd (hdir rfl).1 hnot
        · exact absurd (hdir rfl).2 hne
  | false =>
      rw [if_neg Bool.false_ne_true, wp_trySys]
      intro x fs hout
      rcases hout.unlink hp with ⟨rfl, -, hremoved⟩ | ⟨rfl, e, rfl, hfail⟩
      · exact ⟨_, rfl, rfl, .ofRemoved hremoved, fun _ _ _ => ⟨rfl, hremoved.gone⟩⟩
      · refine ⟨_, rfl, rfl, .refl _ _, fun hrel _ hleaf => ?_⟩
        obtain ⟨i, hi⟩ := hleaf rfl
        rcases hfail with hfault | ⟨mode, mtime, hdir⟩ | hnone
        · exact absurd hfault (hrel.faults _ _)
        · simp [hi] at hdir
        · simp [hi] at hnone

/-- The entries of a directory go, if each child does. -/
theorem deleteEntries_spec {path : Path} (hp : path ≠ []) {ex : Option Exception}
    {child : Path → Option Exception → Action (Option Exception)}
    (hchild : ∀ name ex w', Pruned w.fs w'.fs path → w.fs.node (path ++ [name]) ≠ none →
      (child (path ++ [name]) ex).wp (exec env config) deep
        (Deleted env w' (path ++ [name]) ex) w')
    (hdir : w.fs.IsDir path) :
    (deleteEntries child path ex).wp (exec env config) deep (fun r w' =>
      w'.db = w.db ∧ Pruned w.fs w'.fs path ∧
      (env.Reliable → r = .ok ex ∧ w'.fs.IsDir path ∧ w'.fs.names path = [])) w := by
  simp only [deleteEntries, Prog.bind_def, Prog.wp_bind]
  rw [wp_sys]
  intro x fs hout
  obtain ⟨rfl, hcase⟩ := hout.readdir
  rcases hcase with ⟨listing, rfl, hreads, hcut⟩ | ⟨e, rfl, hfail⟩
  · rw [thrown_ok, Prog.next_ok, Prog.wp_bind]
    have hmem : ∀ e ∈ listing.entries, w.fs.node (path ++ [e.name]) ≠ none := by
      intro e he
      obtain ⟨n, hn, -⟩ := FileSystem.mem_entries.mp (hreads.sub.subset he)
      simp [hn]
    -- the entries still to come are all that is left of the directory
    refine Prog.wp_foldlM (fun (rest : List DirEntry) (ex' : Option Exception) (w' : World) =>
      w'.db = w.db ∧ Pruned w.fs w'.fs path ∧ w'.fs.IsDir path ∧
      (∀ e ∈ rest, w.fs.node (path ++ [e.name]) ≠ none) ∧
      (env.Reliable → ex' = ex ∧ ∀ name, w'.fs.node (path ++ [name]) ≠ none →
        name ∈ rest.map (·.name))) ?_ ?_
      ⟨rfl, .refl _ _, hdir, hmem, fun hrel => ⟨rfl, fun name hname => ?_⟩⟩
    · rintro e rest ex' w' ⟨hdb, hpruned, hdir', hrest, hrel'⟩
      simp only [Prog.wp_bind, wp_checkInterrupt]
      refine ⟨Prog.wp_mono (hchild e.name ex' w' hpruned (hrest e (by simp))) ?_,
        fun hint => ⟨hdb, hpruned, fun hrel => absurd hint hrel.interrupts⟩⟩
      intro r w'' hdeleted
      have hpruned' := hpruned.trans (hdeleted.pruned.ofChild hp)
      cases r with
      | error err => exact ⟨hdeleted.db.trans hdb, hpruned', fun hrel =>
          absurd (hdeleted.complete hrel).1 (by simp)⟩
      | ok ex'' =>
          have hparent := hdeleted.pruned.parent
          rw [parentDir_append] at hparent
          refine ⟨hdeleted.db.trans hdb, hpruned',
            (FileSystem.isDir_iff_of_untimed hparent).mpr hdir',
            fun e he => hrest e (List.mem_cons_of_mem _ he), fun hrel => ?_⟩
          obtain ⟨hex, hgone⟩ := hdeleted.complete hrel
          obtain ⟨rfl, hleft⟩ := hrel' hrel
          obtain rfl : ex'' = ex' := Except.ok.inj hex
          refine ⟨rfl, fun name hname => ?_⟩
          have hbefore : w'.fs.node (path ++ [name]) ≠ none :=
            fun hnone => hname (hdeleted.pruned.node_eq_none hnone)
          rcases List.mem_cons.mp (hleft name hbefore) with rfl | hmore
          · exact absurd hgone hname
          · exact hmore
    · rintro ex' w' ⟨hdb, hpruned, hdir', -, hrel'⟩
      rw [Prog.next_ok]
      rcases herror : listing.error with - | err
      · exact ⟨hdb, hpruned, fun hrel => ⟨congrArg _ (hrel' hrel).1, hdir',
          FileSystem.names_eq_nil_iff.mpr fun name => by
            by_contra hname
            exact absurd ((hrel' hrel).2 name hname) (by simp)⟩⟩
      · exact ⟨hdb, hpruned, fun hrel => absurd (hcut err herror) (hrel.faults _ _)⟩
    · have hall := hreads.all (Option.eq_none_iff_forall_ne_some.mpr fun e he =>
        hrel.faults _ _ (hcut e he))
      have hnames : name ∈ (w.fs.entries path).map (·.name) := by
        rw [FileSystem.map_name_entries, FileSystem.mem_names]
        exact hname
      exact (hall.map _).mem_iff.mpr hnames
  · refine ⟨rfl, .refl _ _, fun hrel => ?_⟩
    rcases hfail with hfault | hnot
    · exact absurd hfault (hrel.faults _ _)
    · exact absurd hdir hnot

theorem statNode_type {fs : FileSystem} {path : Path} {n : Node} (h : fs.node path = some n) :
    ((fs.statNode n).type = .tDirectory ↔ fs.IsDir path) := by
  cases n with
  | directory mode mtime => simp [FileSystem.statNode, FileSystem.IsDir, h]
  | leaf i =>
      simp only [FileSystem.statNode, FileSystem.statInode, FileSystem.IsDir, h, Option.some.injEq,
        reduceCtorEq, exists_false, iff_false]
      exact (fs.inode i).kind.type_ne_tDirectory

theorem eq_leaf_of_statNode {fs : FileSystem} {n : Node}
    (h : (fs.statNode n).type ≠ .tDirectory) : ∃ i, n = .leaf i := by
  cases n with
  | directory mode mtime => exact absurd rfl h
  | leaf i => exact ⟨i, rfl⟩

theorem deleteBelow_spec {path : Path} {st : FileStat} (hp : path ≠ []) {ex : Option Exception}
    {child : Path → Option Exception → Action (Option Exception)}
    (hchild : ∀ name ex w', Pruned w.fs w'.fs path → w.fs.node (path ++ [name]) ≠ none →
      (child (path ++ [name]) ex).wp (exec env config) deep
        (Deleted env w' (path ++ [name]) ex) w')
    {n : Node} (hnode : w.fs.node path = some n) (hst : st = w.fs.statNode n) :
    (deleteBelow child path st ex).wp (exec env config) deep (fun r w' =>
      w'.db = w.db ∧ Pruned w.fs w'.fs path ∧ (env.Reliable → r = .ok ex ∧
        (st.type = .tDirectory → w'.fs.IsDir path ∧ w'.fs.names path = []) ∧
        (st.type ≠ .tDirectory → w'.fs.node path = some n))) w := by
  unfold deleteBelow
  split
  · rename_i htype
    have hdir : w.fs.IsDir path := (statNode_type hnode).mp (hst ▸ htype)
    rw [Prog.bind_def, Prog.wp_bind]
    refine Prog.wp_mono (makeAccessible_spec hp hdir) ?_
    rintro (err | _) w₁ ⟨hdb₁, hpruned₁, hdir₁, hok₁⟩
    · exact ⟨hdb₁, hpruned₁, fun hrel => absurd (hok₁ hrel) (by simp)⟩
    · refine Prog.wp_mono (deleteEntries_spec hp (fun name ex w₂ hpruned hname =>
        hchild name ex w₂ (hpruned₁.trans hpruned) fun hnone => hname (hpruned₁.node_eq_none hnone))
        hdir₁) ?_
      rintro r w₂ ⟨hdb₂, hpruned₂, hok₂⟩
      exact ⟨hdb₂.trans hdb₁, hpruned₁.trans hpruned₂,
        fun hrel => ⟨(hok₂ hrel).1, fun _ => (hok₂ hrel).2, fun h => absurd htype h⟩⟩
  · rename_i htype
    exact ⟨rfl, .refl _ _, fun _ => ⟨rfl, fun h => absurd h htype, fun _ => hnode⟩⟩

/-- `_deletePath` prunes the tree at the path, and takes all of it if nothing
fails. -/
theorem deletePath_rec_spec {depth : Nat} {path : Path} {ex : Option Exception} (hp : path ≠ [])
    (hdepth : deep ∨ WithinDepth w.fs path depth) :
    (deletePath_ depth path ex).wp (exec env config) deep (Deleted env w path ex) w := by
  induction depth generalizing path ex w with
  | zero => exact hdepth.resolve_right fun h => absurd h.1 (lt_irrefl 0)
  | succ depth ih =>
      simp only [deletePath_, Prog.bind_def, Prog.wp_bind, wp_checkInterrupt]
      refine ⟨Prog.wp_bind.mpr (Prog.wp_mono maybeLstat_spec ?_), fun hint =>
        ⟨rfl, .refl _ _, fun hrel => absurd hint hrel.interrupts⟩⟩
      rintro r w' ⟨rfl, rfl | ⟨e, hfault, rfl | ⟨err, rfl⟩⟩⟩
      · rcases hnode : w'.fs.node path with - | n
        · exact ⟨rfl, .refl _ _, fun _ => ⟨rfl, hnode⟩⟩
        · have hchild : ∀ name ex w₂, Pruned w'.fs w₂.fs path → w'.fs.node (path ++ [name]) ≠ none →
              (deletePath_ depth (path ++ [name]) ex).wp (exec env config) deep
                (Deleted env w₂ (path ++ [name]) ex) w₂ := fun name ex w₂ hpruned hname =>
            ih (by simp) (hdepth.imp id fun h => (h.child hname).pruned hpruned)
          refine Prog.wp_bind.mpr (Prog.wp_mono (deleteBelow_spec hp hchild hnode rfl) ?_)
          rintro (err | ex') w₁ ⟨hdb₁, hpruned₁, hok₁⟩
          · exact ⟨hdb₁, hpruned₁, fun hrel => absurd (hok₁ hrel).1 (by simp)⟩
          · refine Prog.wp_bind.mpr (Prog.wp_mono (unlinkat_spec hp ex') ?_)
            rintro r w₂ ⟨x, rfl, hdb₂, hpruned₂, hok₂⟩
            refine ⟨hdb₂.trans hdb₁, hpruned₁.trans hpruned₂, fun hrel => ?_⟩
            obtain ⟨hex, hempty, hleaf⟩ := hok₁ hrel
            obtain rfl : ex' = ex := Except.ok.inj hex
            have hfile : (w'.fs.statNode n).type ≠ .tDirectory →
                ∃ i, w₁.fs.node path = some (.leaf i) := fun htype => by
              obtain ⟨i, rfl⟩ := eq_leaf_of_statNode htype
              exact ⟨i, hleaf htype⟩
            obtain ⟨hsame, hgone⟩ := hok₂ hrel (fun htype => hempty (by simpa using htype))
              fun htype => hfile (by simpa using htype)
            exact ⟨congrArg _ hsame, hgone⟩
      · exact ⟨rfl, .refl _ _, fun hrel => absurd hfault (hrel.faults _ _)⟩
      · exact ⟨rfl, .refl _ _, fun hrel => absurd hfault (hrel.faults _ _)⟩

theorem deletePath_spec {depth : Nat} {path : Path} (hp : path ≠ [])
    (hdepth : deep ∨ WithinDepth w.fs path depth) :
    (deletePath depth path).wp (exec env config) deep (fun r w' => w'.db = w.db ∧
      Pruned w.fs w'.fs path ∧ (env.Reliable → w.fs.IsDir (parentDir path) →
        r = .ok () ∧ w'.fs.node path = none)) w := by
  rw [deletePath, Prog.bind_def, Prog.wp_bind, wp_trySys]
  intro x fs hout
  obtain ⟨rfl, hx⟩ := hout.openDirectory
  rcases x with e | _
  · refine Prog.next_ok.mpr ?_
    have hfail : env.Reliable → ¬ w.fs.IsDir (parentDir path) := by
      rintro hrel ⟨mode, mtime, hnode⟩
      rcases hx with hx | ⟨e', hfault, -⟩
      · simp [FileSystem.openDirectory, hnode] at hx
      · exact hrel.faults _ _ hfault
    dsimp only
    by_cases he : e = .enoent
    · rw [if_pos he]
      exact ⟨rfl, .refl _ _, fun hrel hdir => absurd hdir (hfail hrel)⟩
    · rw [if_neg he]
      exact ⟨rfl, .refl _ _, fun hrel hdir => absurd hdir (hfail hrel)⟩
  · refine Prog.wp_bind.mpr (Prog.wp_mono (deletePath_rec_spec hp hdepth) ?_)
    rintro (err | ex) w' ⟨hdb, hpruned, hcomplete⟩
    · exact ⟨hdb, hpruned, fun hrel => absurd (hcomplete hrel).1 (by simp)⟩
    · cases ex with
      | none => exact ⟨hdb, hpruned, fun hrel _ => ⟨rfl, (hcomplete hrel).2⟩⟩
      | some err => exact ⟨hdb, hpruned, fun hrel => absurd (hcomplete hrel).1 (by simp)⟩

end Spec

end Store
end Archinix
