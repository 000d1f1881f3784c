import Archinix.Store.CollectGarbage

/-!
# What the loops of the collector do

`Progress` is the invariant of the loop over the named paths: the paths taken so
far, and that nothing but them has changed.  It holds whatever fails, and
without failures it says exactly which paths have been taken.
`LinksPruned` is the same for the loop over `.links`.
-/

namespace Archinix
namespace Store

open Foundation Util Host

/-- The nodes at and below the real paths of some store paths. -/
def Below (config : LocalStoreConfig) (taken : Set StorePath) : Set Path :=
  {q | ∃ p ∈ taken, config.toRealPath p <+: q}

/-- No operation fails and the store directory is there. -/
def Steady (env : Environment) (config : LocalStoreConfig) (w : World) : Prop :=
  env.Reliable ∧ w.fs.IsDir config.realStoreDir

/-- The loop over the named paths, started in `w` with these roots, has got through
`done`: the paths in `taken` are unregistered, those left alone are rooted or
referred to by a path that is still there. -/
structure Progress (env : Environment) (config : LocalStoreConfig) (w : World) (roots : Roots)
    (done : List StorePath) (taken : Set StorePath) (w' : World) : Prop where
  subset : ∀ p ∈ taken, p ∈ done
  unrooted : ∀ p ∈ done, p ∉ roots
  row : ∀ p, (p ∈ taken → w'.db.queryPathInfo p = none) ∧
    (p ∉ taken → w'.db.queryPathInfo p = w.db.queryPathInfo p)
  refers : ∀ p q, w'.db.Refers p q ↔ w.db.Refers p q ∧ p ∉ taken ∧ q ∉ taken
  referrers : ∀ q ∈ taken, ∀ p, p ≠ q → w.db.Refers p q → p ∈ taken ∧ p < q
  keeps : Keeps (Below config taken) {config.realStoreDir} w.fs w'.fs
  shrinks : ∀ q, w.fs.GoneOrSame w'.fs q
  all : Steady env config w → ∀ q ∈ done,
    (∀ p, p ≠ q → w.db.Refers p q → p ∈ taken ∧ p < q) → q ∈ taken
  gone : Steady env config w → ∀ p ∈ taken, w'.fs.node (config.toRealPath p) = none

section Loop

variable {env : Environment} {config : LocalStoreConfig} {deep : Prop} {w w₁ : World}
  {roots : Roots} {done : List StorePath} {taken : Set StorePath} {p : StorePath}

theorem Progress.start (env : Environment) (config : LocalStoreConfig) (w : World)
    (roots : Roots) : Progress env config w roots [] ∅ w where
  subset := by simp
  unrooted := by simp
  row := by simp
  refers := by simp
  referrers := by simp
  keeps := .refl _ _ _
  shrinks _ := Or.inr rfl
  all := by simp
  gone := by simp

theorem Progress.isDir (h : Progress env config w roots done taken w₁) :
    w₁.fs.IsDir config.realStoreDir ↔ w.fs.IsDir config.realStoreDir :=
  FileSystem.isDir_iff_of_untimed (h.keeps.untimed _ fun ⟨q, _, hq⟩ =>
    config.toRealPath_ne_realStoreDir q hq)

/-- Who keeps a path from being taken: a referrer that has not been taken. -/
theorem Progress.inUse_iff (h : Progress env config w roots done taken w₁) (hp : p ∉ taken) :
    w₁.db.InUse p ↔ ∃ q, q ≠ p ∧ w.db.Refers q p ∧ q ∉ taken := by
  constructor
  · rintro ⟨q, hne, href⟩
    obtain ⟨hold, hq, -⟩ := (h.refers q p).mp href
    exact ⟨q, hne, hold, hq⟩
  · rintro ⟨q, hne, href, hq⟩
    exact ⟨q, hne, (h.refers q p).mpr ⟨href, hq, hp⟩⟩

/-- A path that is in use is passed over. -/
theorem Progress.skip (h : Progress env config w roots done taken w₁) (hp : p ∉ taken)
    (hroot : p ∉ roots) (hinUse : w₁.db.InUse p) : Progress env config w roots (done ++ [p]) taken w₁ where
  subset q hq := List.mem_append_left _ (h.subset q hq)
  unrooted := by
    simpa [or_imp, forall_and] using ⟨h.unrooted, hroot⟩
  row := h.row
  refers := h.refers
  referrers := h.referrers
  keeps := h.keeps
  shrinks := h.shrinks
  all hsteady q hq hreferrers := by
    rcases List.mem_append.mp hq with hq | hq
    · exact h.all hsteady q hq hreferrers
    · obtain rfl := List.mem_singleton.mp hq
      obtain ⟨r, hne, href, hr⟩ := (h.inUse_iff hp).mp hinUse
      exact absurd (hreferrers r hne href).1 hr
  gone := h.gone

/-- The transaction has gone through and whatever has been deleted so far was at
or below the path. -/
theorem Progress.take (h : Progress env config w roots done taken w₁)
    (hlt : ∀ q ∈ done, q < p) (hroot : p ∉ roots) (hfree : ¬ w₁.db.InUse p) {w₂ : World}
    (hdb : Database.Invalidated w₁.db w₂.db p) (hpruned : Pruned w₁.fs w₂.fs (config.toRealPath p))
    (hgone : Steady env config w₁ → w₂.fs.node (config.toRealPath p) = none) :
    Progress env config w roots (done ++ [p]) (insert p taken) w₂ := by
  have hp : p ∉ taken := fun hp => absurd (hlt p (h.subset p hp)) (List.lt_irrefl p.baseName)
  refine ⟨?_, ?_, fun q => ⟨?_, ?_⟩, fun a b => ?_, ?_, ?_, fun q => ?_, ?_, ?_⟩
  · rintro q (rfl | hq)
    · simp
    · exact List.mem_append_left _ (h.subset q hq)
  · simpa [or_imp, forall_and] using ⟨h.unrooted, hroot⟩
  · rintro (rfl | hq)
    · rw [hdb.row, if_pos rfl]
    · rw [hdb.row, (h.row q).1 hq, ite_self]
  · intro hq
    have hne : q ≠ p := fun hqp => hq (Or.inl hqp)
    rw [hdb.row, if_neg hne, (h.row q).2 fun hmem => hq (Or.inr hmem)]
  · rw [hdb.refers, h.refers]
    simp only [Set.mem_insert_iff, not_or]
    tauto
  · rintro q (rfl | hq) r hne href
    · have hr : r ∈ taken := by
        by_contra hr
        exact hfree ((h.inUse_iff hp).mpr ⟨r, hne, href, hr⟩)
      exact ⟨Or.inr hr, hlt r (h.subset r hr)⟩
    · exact (h.referrers q hq r hne href).imp Or.inr id
  · refine (h.keeps.mono ?_ (le_refl _)).trans ⟨fun q hq ht => ?_, fun q hq => ?_, fun i _ => ?_, ?_⟩
    · rintro q ⟨r, hr, hbelow⟩
      exact ⟨r, Or.inr hr, hbelow⟩
    · exact hpruned.outside q (fun hbelow => hq ⟨p, Or.inl rfl, hbelow⟩)
        (by rwa [config.parentDir_toRealPath])
    · exact hpruned.untimed_of_not_prefix fun hbelow => hq ⟨p, Or.inl rfl, hbelow⟩
    · rw [hpruned.inode]
    · exact hpruned.nextIno.ge
  · exact (h.shrinks q).trans (hpruned.goneOrSame q)
  · intro hsteady q hmem hreferrers
    rcases List.mem_append.mp hmem with hq | hq
    · refine Or.inr (h.all hsteady q hq fun r hne href => ?_)
      obtain ⟨hr, hrq⟩ := hreferrers r hne href
      refine ⟨hr.resolve_left ?_, hrq⟩
      rintro rfl
      exact absurd (List.lt_trans hrq (hlt q hq)) (List.lt_irrefl r.baseName)
    · exact Or.inl (List.mem_singleton.mp hq)
  · rintro hsteady q (rfl | hq)
    · exact hgone ⟨hsteady.1, h.isDir.mpr hsteady.2⟩
    · exact hpruned.node_eq_none (h.gone hsteady q hq)

/-- How a round of the loop ends: the path has been dealt with, or an exception
has left the loop in it. -/
def RoundEnds (env : Environment) (config : LocalStoreConfig) (w : World) (roots : Roots)
    (done : List StorePath) (p : StorePath) : Except Exception (List Bytes) → World → Prop
  | .ok _, w' => ∃ taken, Progress env config w roots (done ++ [p]) taken w'
  | .error _, w' => ∃ done' taken, done' <+: done ++ [p] ∧
      Progress env config w roots done' taken w' ∧
      (Steady env config w → done' = done ∧ p ∈ roots)

theorem deleteStorePath_spec {depth : Nat} (hdepth : deep ∨ WithinDepth w.fs (config.toRealPath p) depth) :
    (deleteStorePath config depth (config.toRealPath p)).wp (exec env config) deep (fun r w' =>
      w'.db = w.db ∧ Pruned w.fs w'.fs (config.toRealPath p) ∧
      (Steady env config w → r = .ok () ∧ w'.fs.node (config.toRealPath p) = none)) w := by
  rw [deleteStorePath, Prog.bind_def, Prog.wp_bind, Prog.wp_attempt]
  refine Prog.wp_mono (deletePath_spec (config.toRealPath_ne_nil p) hdepth) ?_
  rw [config.parentDir_toRealPath]
  rintro (e | _) w' ⟨hdb, hpruned, hcomplete⟩
  · have hnot : ¬ Steady env config w := fun hsteady =>
      absurd (hcomplete hsteady.1 hsteady.2).1 (by simp)
    rw [Prog.next_ok]
    cases e with
    | systemError e err =>
        dsimp only
        split <;> exact ⟨hdb, hpruned, fun hsteady => absurd hsteady hnot⟩
    | error err => exact ⟨hdb, hpruned, fun hsteady => absurd hsteady hnot⟩
    | filesystemError e => exact ⟨hdb, hpruned, fun hsteady => absurd hsteady hnot⟩
    | interrupted => exact ⟨hdb, hpruned, fun hsteady => absurd hsteady hnot⟩
  · exact ⟨hdb, hpruned, fun hsteady => ⟨rfl, (hcomplete hsteady.1 hsteady.2).2⟩⟩

/-- No store path is a temporary directory. -/
theorem baseName_not_tmp (p : StorePath) : p.baseName.take 4 ≠ str "tmp-" := by
  rcases hbase : p.baseName with - | ⟨c, rest⟩
  · exact absurd hbase p.ne_nil
  · intro h
    obtain rfl : c = 116 := by
      have htmp : str "tmp-" = [116, 109, 112, 45] := by decide
      rw [htmp, List.take_succ_cons] at h
      exact (List.cons.inj h).1
    exact p.ne_of_head (by decide) hbase

theorem deleteFromStore_spec {depth : Nat} {results : List Bytes}
    (hdepth : deep ∨ WithinDepth w.fs (config.toRealPath p) depth) :
    (deleteFromStore config depth p results).wp (exec env config) deep (fun r w' =>
      w'.db = w.db ∧ Pruned w.fs w'.fs (config.toRealPath p) ∧
      (Steady env config w → (∃ results', r = .ok results') ∧
        w'.fs.node (config.toRealPath p) = none)) w := by
  unfold deleteFromStore
  rw [if_neg (baseName_not_tmp p)]
  simp only [Prog.bind_def, Prog.wp_bind]
  refine Prog.wp_mono (deleteStorePath_spec hdepth) ?_
  rintro (e | _) w' ⟨hdb, hpruned, hcomplete⟩
  · exact ⟨hdb, hpruned, fun hsteady => absurd (hcomplete hsteady).1 (by simp)⟩
  · exact ⟨hdb, hpruned, fun hsteady => ⟨⟨_, rfl⟩, (hcomplete hsteady).2⟩⟩

theorem wp_invalidatePathChecked {Q : Except Exception Unit → World → Prop}
    (hok : ∀ db, ¬ w.db.InUse p → Database.Invalidated w.db db p → Q (.ok ()) { w with db := db })
    (hinUse : ∀ e : Error, w.db.InUse p → e.cls = .pathInUse → Q (.error (.error e)) w)
    (hfail : env.dbFails → ∀ e : Error, e.cls = .sqliteError → Q (.error (.error e)) w) :
    (invalidatePathChecked p).wp (exec env config) deep Q w := by
  rw [invalidatePathChecked, wp_ask]
  rintro x w' (⟨db, hrun, rfl, rfl⟩ | ⟨e, hrun, rfl, rfl⟩ | ⟨hdb, e, hcls, rfl, rfl⟩)
  · rcases w.db.invalidatePathChecked_spec config.toStoreDirConfig p with
      ⟨hfree, db', hrun', hinv⟩ | ⟨-, e, hrun', -⟩
    · obtain rfl := Except.ok.inj (hrun.symm.trans hrun')
      exact hok db hfree hinv
    · cases hrun.symm.trans hrun'
  · rcases w'.db.invalidatePathChecked_spec config.toStoreDirConfig p with
      ⟨-, db', hrun', -⟩ | ⟨hused, e', hrun', hcls⟩
    · cases hrun.symm.trans hrun'
    · obtain rfl := Except.error.inj (hrun.symm.trans hrun')
      exact hinUse e hused hcls
  · exact hfail hdb e hcls

/-- One round of the loop over the named paths. -/
theorem collectPath_spec {depth : Nat} {results : List Bytes}
    (h : Progress env config w roots done taken w₁) (hlt : ∀ q ∈ done, q < p)
    (hdepth : deep ∨ WithinDepth w₁.fs (config.toRealPath p) depth) :
    (collectPath config depth roots results p).wp (exec env config) deep
      (RoundEnds env config w roots done p) w₁ := by
  have hp : p ∉ taken := fun hp => absurd (hlt p (h.subset p hp)) (List.lt_irrefl p.baseName)
  have habort : ∀ e, ¬ Steady env config w →
      RoundEnds env config w roots done p (.error e) w₁ := fun e hnot =>
    ⟨done, taken, List.prefix_append _ _, h, fun hsteady => absurd hsteady hnot⟩
  rw [collectPath, Prog.bind_def, Prog.wp_bind, wp_checkInterrupt]
  refine ⟨?_, fun hint => habort .interrupted fun hsteady => hsteady.1.interrupts hint⟩
  rw [Prog.next_ok]
  split
  · rename_i hroot
    exact ⟨done, taken, List.prefix_append _ _, h, fun _ => ⟨rfl, hroot⟩⟩
  · rename_i hroot
    rw [Prog.bind_def, Prog.wp_bind, Prog.wp_attempt, Prog.bind_def, Prog.wp_bind]
    refine wp_invalidatePathChecked (fun db hfree hinv => ?_) (fun e hused hcls => ?_)
      fun hdb e hcls => ?_
    · -- the path is unregistered; what remains is its tree
      rw [Prog.next_ok]
      refine Prog.wp_mono (deleteFromStore_spec hdepth) ?_
      rintro r w₂ ⟨rfl, hpruned, hcomplete⟩
      have htaken := h.take hlt hroot hfree hinv hpruned fun hsteady => (hcomplete hsteady).2
      have hsteady₁ : Steady env config w → ∃ results', r = .ok results' := fun hsteady =>
        (hcomplete ⟨hsteady.1, h.isDir.mpr hsteady.2⟩).1
      rw [Prog.next_ok]
      rcases r with e | results'
      · have hend : ∀ e', RoundEnds env config w roots done p (.error e') w₂ := fun _ =>
          ⟨_, _, List.prefix_refl _, htaken, fun hsteady => absurd (hsteady₁ hsteady) (by simp)⟩
        cases e with
        | error err =>
            dsimp only
            split
            · exact ⟨_, htaken⟩
            · exact hend _
        | systemError _ _ => exact hend _
        | filesystemError _ => exact hend _
        | interrupted => exact hend _
      · exact ⟨_, htaken⟩
    · rw [Prog.next_error, Prog.next_ok]
      dsimp only
      rw [if_pos hcls]
      exact ⟨taken, h.skip hp hroot hused⟩
    · rw [Prog.next_error, Prog.next_ok]
      dsimp only
      rw [if_neg (by rw [hcls]; decide)]
      exact habort _ fun hsteady => hsteady.1.dbFails hdb

theorem WithinDepth.shrinks {fs fs' : FileSystem} {path : Path} {depth : Nat}
    (h : WithinDepth fs path depth) (hshrinks : ∀ q, fs.node q = none → fs'.node q = none) :
    WithinDepth fs' path depth :=
  ⟨h.1, fun q hq hnode => h.2 q hq fun hnone => hnode (hshrinks q hnone)⟩

/-- The loop over the named paths. -/
theorem collectPaths_spec {depth : Nat} {paths : List StorePath} (hsorted : paths.Pairwise (· < ·))
    (hdepth : deep ∨ ∀ p, WithinDepth w.fs (config.toRealPath p) depth) :
    (paths.foldlM (collectPath config depth roots) []).wp (exec env config) deep (fun r w' =>
      match r with
      | .ok _ => ∃ taken, Progress env config w roots paths taken w'
      | .error _ => ∃ done taken, done <+: paths ∧ Progress env config w roots done taken w' ∧
          (Steady env config w → ∃ p rest, paths = done ++ p :: rest ∧ p ∈ roots)) w := by
  refine Prog.wp_foldlM (fun (rest : List StorePath) (_ : List Bytes) (w' : World) =>
    ∃ done taken, done ++ rest = paths ∧ Progress env config w roots done taken w') ?_ ?_
    ⟨[], ∅, rfl, Progress.start _ _ _ _⟩
  · rintro p rest results w' ⟨done, taken, hpaths, hprogress⟩
    have hlt : ∀ q ∈ done, q < p := by
      rw [← hpaths, List.pairwise_append] at hsorted
      exact fun q hq => hsorted.2.2 q hq p (by simp)
    refine Prog.wp_mono (collectPath_spec hprogress hlt
      (hdepth.imp id fun h => (h p).shrinks fun q => (hprogress.shrinks q).node_eq_none)) ?_
    rintro (e | results') w'' hround
    · obtain ⟨done', taken', hthrough, hprogress', hrooted⟩ := hround
      refine ⟨done', taken', hthrough.trans ⟨rest, by simpa using hpaths⟩, hprogress', fun hsteady => ?_⟩
      obtain ⟨rfl, hroot⟩ := hrooted hsteady
      exact ⟨p, rest, hpaths.symm, hroot⟩
    · obtain ⟨taken', hprogress'⟩ := hround
      exact ⟨done ++ [p], taken', by simpa using hpaths, hprogress'⟩
  · rintro results w' ⟨done, taken, hpaths, hprogress⟩
    obtain rfl : done = paths := by simpa using hpaths
    exact ⟨taken, hprogress⟩

end Loop

/-! ## The loop over `.links` -/

/-- The node at a path is a link, and there is no other to its inode. -/
def OnlyLink (fs : FileSystem) (q : Path) : Prop :=
  ∃ i, fs.node q = some (.leaf i) ∧ ∀ q', fs.node q' = some (.leaf i) → q' = q

/-- The loop over `.links` has dealt with all names but those in `rest`: only
entries that were their inode's only link have gone. -/
structure LinksPruned (config : LocalStoreConfig) (w : World) (rest : List Name) (w' : World) :
    Prop where
  db : w'.db = w.db
  keeps : Keeps {q | ∃ name, q = config.linksDir ++ [name]} {config.linksDir} w.fs w'.fs
  sole : ∀ q, w'.fs.node q = w.fs.node q ∨ q = config.linksDir ∨
    (w'.fs.node q = none ∧ OnlyLink w.fs q ∧ ∃ name, q = config.linksDir ++ [name] ∧ name ∉ rest)

section Links

variable {env : Environment} {config : LocalStoreConfig} {deep : Prop} {w w₁ : World}
  {rest : List Name} {name : Name}

theorem LinksPruned.start (config : LocalStoreConfig) (w : World) (rest : List Name) :
    LinksPruned config w rest w :=
  ⟨rfl, .refl _ _ _, fun _ => Or.inl rfl⟩

theorem linksDir_ne (config : LocalStoreConfig) (name : Name) :
    config.linksDir ++ [name] ≠ config.linksDir := by
  simp

/-- A link that is still there is a link as before, and as much alone. -/
theorem LinksPruned.onlyLink_iff (h : LinksPruned config w rest w₁) {q : Path}
    (hq : w₁.fs.node q ≠ none) (hdir : q ≠ config.linksDir) :
    OnlyLink w₁.fs q ↔ OnlyLink w.fs q := by
  have hsame : w₁.fs.node q = w.fs.node q := by
    rcases h.sole q with hsame | hlinks | ⟨hnone, -⟩
    · exact hsame
    · exact absurd hlinks hdir
    · exact absurd hnone hq
  have hdirLinks : ∀ i, w₁.fs.node config.linksDir = some (.leaf i) ↔
      w.fs.node config.linksDir = some (.leaf i) := fun i => by
    rw [← FileSystem.untimed_eq_leaf, ← FileSystem.untimed_eq_leaf,
      h.keeps.untimed _ fun ⟨name, hname⟩ => linksDir_ne config name hname.symm]
  constructor
  · rintro ⟨i, hi, honly⟩
    refine ⟨i, by rwa [← hsame], fun q' hq' => ?_⟩
    rcases h.sole q' with hsame' | rfl | ⟨-, ⟨j, hj, honly'⟩, -⟩
    · exact honly q' (by rwa [hsame'])
    · exact honly _ ((hdirLinks i).mpr hq')
    · obtain rfl : j = i := by simpa [hj] using hq'
      exact (honly' q (by rwa [← hsame])).symm
  · rintro ⟨i, hi, honly⟩
    refine ⟨i, by rwa [hsame], fun q' hq' => ?_⟩
    rcases h.sole q' with hsame' | rfl | ⟨hnone, -⟩
    · exact honly q' (by rwa [← hsame'])
    · exact honly _ ((hdirLinks i).mp hq')
    · rw [hnone] at hq'
      cases hq'

theorem LinksPruned.mono (h : LinksPruned config w rest w₁) {rest' : List Name}
    (hrest : ∀ n ∈ rest', n ∈ rest) : LinksPruned config w rest' w₁ :=
  ⟨h.db, h.keeps, fun q => (h.sole q).imp id (Or.imp id fun ⟨hnone, honly, n, hq, hn⟩ =>
    ⟨hnone, honly, n, hq, fun hmem => hn (hrest n hmem)⟩)⟩

/-- A name that is still to come leads where it did. -/
theorem LinksPruned.node_eq (h : LinksPruned config w (name :: rest) w₁) :
    w₁.fs.node (config.linksDir ++ [name]) = w.fs.node (config.linksDir ++ [name]) := by
  rcases h.sole (config.linksDir ++ [name]) with hsame | hlinks | ⟨-, -, n, hq, hn⟩
  · exact hsame
  · exact absurd hlinks (linksDir_ne config name)
  · obtain rfl : name = n := by simpa using hq
    exact absurd List.mem_cons_self hn

/-- An entry that is its inode's only link is unlinked. -/
theorem LinksPruned.remove (h : LinksPruned config w (name :: rest) w₁) (hname : name ∉ rest)
    (honly : OnlyLink w₁.fs (config.linksDir ++ [name])) {fs : FileSystem}
    (hremoved : Removed w₁.fs fs (config.linksDir ++ [name])) :
    LinksPruned config w rest { w₁ with fs := fs } where
  db := h.db
  keeps := by
    have hkeeps := hremoved.keeps
    rw [parentDir_append] at hkeeps
    refine h.keeps.trans (hkeeps.mono ?_ (le_refl _))
    rintro q rfl
    exact ⟨name, rfl⟩
  sole q := by
    by_cases hq : q = config.linksDir ++ [name]
    · subst hq
      refine Or.inr (Or.inr ⟨hremoved.gone, ?_, name, rfl, hname⟩)
      obtain ⟨i, hi, -⟩ := id honly
      exact (h.onlyLink_iff (by simp [hi]) (linksDir_ne config name)).mp honly
    · by_cases hdir : q = config.linksDir
      · exact Or.inr (Or.inl hdir)
      · rw [hremoved.other q hq (by rwa [parentDir_append])]
        exact (h.mono fun n hn => List.mem_cons_of_mem _ hn).sole q

/-- One round of the loop over `.links`. -/
theorem removeUnusedLink_spec (h : LinksPruned config w (name :: rest) w₁) (hname : name ∉ rest)
    (hnode : w.fs.node (config.linksDir ++ [name]) ≠ none) :
    (removeUnusedLink config name).wp (exec env config) deep (fun r w' =>
      match r with
      | .ok _ => LinksPruned config w rest w' ∧
          (∀ q, w₁.fs.node q = none → w'.fs.node q = none) ∧
          (OnlyLink w.fs (config.linksDir ++ [name]) →
            w'.fs.node (config.linksDir ++ [name]) = none)
      | .error _ => LinksPruned config w [] w' ∧ ¬ env.Reliable) w₁ := by
  have hstop : LinksPruned config w [] w₁ := h.mono (by simp)
  have honly := h.onlyLink_iff (q := config.linksDir ++ [name]) (by rwa [h.node_eq])
    (linksDir_ne config name)
  obtain ⟨n, hn⟩ := Option.ne_none_iff_exists'.mp hnode
  have hn₁ : w₁.fs.node (config.linksDir ++ [name]) = some n := by rw [h.node_eq, hn]
  rw [removeUnusedLink, Prog.bind_def, Prog.wp_bind, wp_checkInterrupt]
  refine ⟨?_, fun hint => ⟨hstop, fun hrel => hrel.interrupts hint⟩⟩
  rw [Prog.next_ok, Prog.bind_def, Prog.wp_bind, wp_sys]
  intro x fs hout
  obtain ⟨rfl, rfl | ⟨e, hfault, rfl⟩⟩ := hout.lstat
  · have hstat : w₁.fs.lstat (config.linksDir ++ [name]) = .ok (w₁.fs.statNode n) := by
      simp [FileSystem.lstat, hn₁]
    rw [hstat, thrown_ok, Prog.next_ok]
    have hnlink : (w₁.fs.statNode n).nlink = 1 ↔ OnlyLink w₁.fs (config.linksDir ++ [name]) := by
      cases n with
      | directory mode mtime => simp [FileSystem.statNode, OnlyLink, hn₁]
      | leaf i =>
          rw [FileSystem.statNode, FileSystem.statInode, FileSystem.nlink_eq_one_iff hn₁]
          simp [OnlyLink, hn₁]
    dsimp only
    split
    · rename_i hone
      rw [wp_sys]
      intro x fs hout
      rcases hout.unlink (by simp) with ⟨rfl, -, hremoved⟩ | ⟨rfl, e, rfl, hfail⟩
      · exact ⟨h.remove hname (hnlink.mp hone) hremoved, fun q hq => hremoved.node_eq_none hq,
          fun _ => hremoved.gone⟩
      · refine ⟨hstop, fun hrel => ?_⟩
        obtain ⟨i, hi, -⟩ := hnlink.mp hone
        rcases hfail with hfault | ⟨mode, mtime, hdir⟩ | hnone
        · exact hrel.faults _ _ hfault
        · rw [hi] at hdir
          cases hdir
        · rw [hi] at hnone
          cases hnone
    · rename_i hmany
      exact ⟨h.mono fun n hn => List.mem_cons_of_mem _ hn, fun _ hq => hq,
        fun hsole => absurd (hnlink.mpr (honly.mpr hsole)) hmany⟩
  · exact ⟨hstop, fun hrel => hrel.faults _ _ hfault⟩

/-- The loop over `.links` takes away entries that are their inode's only link,
and when it comes to its end all of them. -/
theorem removeUnusedLinks_spec :
    (removeUnusedLinks config).wp (exec env config) deep (fun r w' =>
      LinksPruned config w [] w' ∧
      (r = .ok () → (∀ e, ¬ env.faults (.readdir config.linksDir) e) →
        ∀ name, OnlyLink w.fs (config.linksDir ++ [name]) →
          w'.fs.node (config.linksDir ++ [name]) = none) ∧
      (env.Reliable → w.fs.IsDir config.linksDir → r = .ok ())) w := by
  rw [removeUnusedLinks, Prog.bind_def, Prog.wp_bind, wp_sys]
  intro x fs hout
  obtain ⟨rfl, ⟨listing, rfl, hreads, hcut⟩ | ⟨e, rfl, hfail⟩⟩ := hout.readdir
  · rw [thrown_ok, Prog.next_ok]
    have hnodup : (listing.entries.map (·.name)).Nodup := by
      obtain ⟨l, hperm, hsub⟩ := hreads.sub
      have hnames := hsub.map (·.name)
      rw [FileSystem.map_name_entries] at hnames
      exact (hperm.map _).nodup_iff.mp (FileSystem.nodup_names.sublist hnames)
    have hexists : ∀ name ∈ listing.entries.map (·.name),
        w.fs.node (config.linksDir ++ [name]) ≠ none := by
      intro name hname
      obtain ⟨e, he, rfl⟩ := List.mem_map.mp hname
      obtain ⟨n, hn, -⟩ := FileSystem.mem_entries.mp (hreads.sub.subset he)
      simp [hn]
    refine Prog.wp_forM (fun (rest : List Name) (w' : World) => LinksPruned config w rest w' ∧
      rest <:+ listing.entries.map (·.name) ∧
      ∀ name ∈ listing.entries.map (·.name), name ∉ rest →
        OnlyLink w.fs (config.linksDir ++ [name]) → w'.fs.node (config.linksDir ++ [name]) = none)
      ?_ ?_ ⟨LinksPruned.start _ _ _, List.suffix_refl _, by simp +contextual⟩
    · rintro name rest w' ⟨hlinks, hsuffix, hdone⟩
      have hcons := hnodup.sublist hsuffix.sublist
      rw [List.nodup_cons] at hcons
      refine Prog.wp_mono (removeUnusedLink_spec hlinks hcons.1
        (hexists name (hsuffix.subset (by simp)))) ?_
      rintro (e | _) w'' hround
      · obtain ⟨hstop, hnot⟩ := hround
        exact ⟨hstop, by simp, fun hrel => absurd hrel hnot⟩
      · obtain ⟨hlinks', hshrinks, hgone⟩ := hround
        refine ⟨hlinks', (List.suffix_cons _ _).trans hsuffix, fun name' hmem hrest honly => ?_⟩
        by_cases hself : name' = name
        · subst hself
          exact hgone honly
        · exact hshrinks _ (hdone name' hmem (by simp [hself, hrest]) honly)
    · rintro w' ⟨hlinks, -, hdone⟩
      refine ⟨hlinks, fun _ hread name honly => ?_, fun _ _ => rfl⟩
      refine hdone name ?_ (by simp) honly
      have hall := hreads.all (Option.eq_none_iff_forall_ne_some.mpr fun e he =>
        hread e (hcut e he))
      rw [(hall.map _).mem_iff, FileSystem.map_name_entries, FileSystem.mem_names]
      obtain ⟨i, hi, -⟩ := honly
      simp [hi]
  · refine ⟨LinksPruned.start _ _ _, by simp, fun hrel hdir => ?_⟩
    rcases hfail with hfault | hnot
    · exact absurd hfault (hrel.faults _ _)
    · exact absurd hdir hnot

end Links

end Store
end Archinix
