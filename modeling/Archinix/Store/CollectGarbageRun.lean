import Archinix.Store.CollectGarbageSpec

/-!
# Whole runs of the collector

`collectGarbage_spec` puts the stages of `collectGarbage` together: what has been
prepared, how far the loop over the named paths has got, and which entries of
`.links` have gone.
-/

namespace Archinix
namespace Store

open Foundation Util Host

/-- What the constructor of `LocalStore` has set up. -/
structure Layout (config : LocalStoreConfig) (fs : FileSystem) : Prop where
  store : fs.IsDir config.realStoreDir
  links : fs.IsDir config.linksDir
  db : fs.IsDir config.dbDir
  state : fs.IsDir config.stateDir
  gcLock : ∀ n, fs.node config.gcLockPath = some n →
    ∃ i contents, n = .leaf i ∧ (fs.inode i).kind = .regular contents

/-- The lock file is as it was, or it is new. -/
def LockOpened (config : LocalStoreConfig) (fs fs' : FileSystem) : Prop :=
  fs'.node config.gcLockPath = fs.node config.gcLockPath ∨
    (fs.node config.gcLockPath = none ∧
      ∃ i, fs.nextIno ≤ i ∧ fs'.node config.gcLockPath = some (.leaf i))

/-- The state when the loop over the named paths starts: the reserved file has gone,
as far as nothing failed, and the lock file has been opened. -/
structure Prepared (config : LocalStoreConfig) (w w₁ : World) : Prop where
  db : w₁.db = w.db
  keeps : Keeps ({q | config.reservedPath <+: q} ∪ {config.gcLockPath})
    {config.dbDir, config.stateDir} w.fs w₁.fs
  lock : LockOpened config w.fs w₁.fs
  shrinks : ∀ q, q ≠ config.gcLockPath → w.fs.GoneOrSame w₁.fs q

section Paths

variable (config : LocalStoreConfig)

theorem reserved_not_gcLock : ¬ config.reservedPath <+: config.gcLockPath := by
  intro h
  have hlen := h.length_le
  simp [config.reservedPath_eq, config.gcLockPath_eq] at hlen

theorem parentDir_reserved : parentDir config.reservedPath = config.dbDir := parentDir_append _ _

theorem parentDir_gcLock : parentDir config.gcLockPath = config.stateDir := parentDir_append _ _

theorem gcLock_ne_dbDir : config.gcLockPath ≠ config.dbDir := by
  simp only [LocalStoreConfig.gcLockPath, LocalStoreConfig.dbDir, ne_eq, List.append_cancel_left_eq]
  decide

/-- What lies in the store, or under `gcroots`, is not touched by the preparations. -/
theorem not_prepared {q : Path} (hq : config.realStoreDir <+: q ∨ config.gcRootsDir <+: q) :
    ¬ config.reservedPath <+: q ∧ q ≠ config.gcLockPath ∧ q ≠ config.dbDir ∧
      q ≠ config.stateDir := by
  have hstore : ∀ r r' : Path, config.rootDir ++ (str "nix" :: str "var" :: r) ≠
      config.realStoreDir ++ r' := by
    intro r r' h
    simp only [LocalStoreConfig.realStoreDir, List.append_assoc, List.append_cancel_left_eq,
      List.cons_append, List.nil_append, List.cons.injEq] at h
    exact absurd h.2.1 (by decide)
  rcases hq with ⟨r, rfl⟩ | ⟨r, rfl⟩
  · refine ⟨?_, ?_, ?_, ?_⟩
    · rintro ⟨r', h⟩
      rw [config.reservedPath_eq, List.append_assoc] at h
      exact hstore _ _ h
    · rw [config.gcLockPath_eq]
      exact (hstore _ _).symm
    · rw [LocalStoreConfig.dbDir, LocalStoreConfig.stateDir, List.append_assoc]
      exact (hstore _ _).symm
    · exact (hstore _ _).symm
  · have hroots : ∀ (name : Name) (r' : Path), name ≠ str "gcroots" →
        config.stateDir ++ (name :: r') ≠ config.gcRootsDir ++ r := by
      intro name r' hname h
      simp only [LocalStoreConfig.gcRootsDir, List.append_assoc, List.append_cancel_left_eq,
        List.cons_append, List.nil_append, List.cons.injEq] at h
      exact hname h.1
    refine ⟨?_, ?_, ?_, ?_⟩
    · rintro ⟨r', h⟩
      rw [LocalStoreConfig.reservedPath, LocalStoreConfig.dbDir, List.append_assoc,
        List.append_assoc] at h
      exact hroots _ _ (by decide) h
    · exact (hroots (str "gc.lock") [] (by decide)).symm
    · exact (hroots (str "db") [] (by decide)).symm
    · intro h
      have hlen := congrArg List.length h
      simp [LocalStoreConfig.gcRootsDir] at hlen

theorem realStoreDir_prefix_toRealPath (p : StorePath) :
    config.realStoreDir <+: config.toRealPath p := List.prefix_append _ _

theorem realStoreDir_prefix_linksDir : config.realStoreDir <+: config.linksDir :=
  List.prefix_append _ _

end Paths

section Prepare

variable {env : Environment} {config : LocalStoreConfig} {deep : Prop} {w w₁ : World}

/-- The preparations leave the store and the roots alone. -/
theorem Prepared.node_eq (h : Prepared config w w₁) {q : Path}
    (hq : config.realStoreDir <+: q ∨ config.gcRootsDir <+: q) :
    w₁.fs.node q = w.fs.node q := by
  obtain ⟨hreserved, hlock, hdb, hstate⟩ := not_prepared config hq
  refine h.keeps.node q ?_ ?_
  · rintro (hmem | hmem)
    · exact hreserved hmem
    · exact hlock hmem
  · rintro (hmem | hmem)
    · exact hdb hmem
    · exact hstate hmem

theorem Prepared.isDir_iff (h : Prepared config w w₁) {q : Path}
    (hq : config.realStoreDir <+: q ∨ config.gcRootsDir <+: q) : w₁.fs.IsDir q ↔ w.fs.IsDir q := by
  simp only [FileSystem.IsDir, h.node_eq hq]

theorem Prepared.symlinkAt_iff (h : Prepared config w w₁) {q : Path}
    (hq : config.gcRootsDir <+: q) {target : Bytes} :
    SymlinkAt w₁.fs q target ↔ SymlinkAt w.fs q target := by
  simp only [SymlinkAt, h.node_eq (Or.inr hq)]
  refine exists_congr fun i => and_congr_right fun hi => ?_
  rw [h.keeps.inode i (w.fs.ino_lt q i hi)]

/-- The roots are what they were. -/
theorem Prepared.rootedBelow_iff (h : Prepared config w w₁) {p : StorePath} :
    RootedBelow config w₁ config.gcRootsDir p ↔ RootedBelow config w config.gcRootsDir p := by
  rw [RootedBelow, RootedBelow, h.db]
  refine and_congr_right fun _ => exists_congr fun q => and_congr_right fun hq => ?_
  simp only [RootLink, h.symlinkAt_iff hq]

theorem Prepared.withinDepth (h : Prepared config w w₁) {path : Path} {depth : Nat}
    (hpath : config.realStoreDir <+: path ∨ config.gcRootsDir <+: path)
    (hdepth : WithinDepth w.fs path depth) : WithinDepth w₁.fs path depth := by
  refine ⟨hdepth.1, fun q hq hnode => hdepth.2 q hq ?_⟩
  rwa [← h.node_eq (hpath.imp (fun hp => hp.trans hq) fun hp => hp.trans hq)]

theorem fdLock_spec {p : Path} : (fdLock p).wp (exec env config) deep
    (fun r w' => w' = w ∧ (env.Reliable → ∃ got, r = .ok got)) w := by
  have hlock : ∀ wait, (lockFile p wait).wp (exec env config) deep
      (fun r w' => w' = w ∧ (env.Reliable → ∃ got, r = .ok got)) w := by
    intro wait
    rw [lockFile, wp_ask]
    rintro (e | got) _ ⟨hfail, rfl⟩
    · exact ⟨rfl, fun hrel => absurd (hfail ⟨e, rfl⟩) hrel.lockFails⟩
    · exact ⟨rfl, fun _ => ⟨got, rfl⟩⟩
  rw [fdLock, Prog.bind_def, Prog.wp_bind]
  refine Prog.wp_mono (hlock false) ?_
  rintro (e | got) _ ⟨rfl, hrel⟩
  · exact ⟨rfl, fun h => absurd (hrel h) (by simp)⟩
  · rw [Prog.next_ok]
    cases got with
    | true => exact ⟨rfl, fun _ => ⟨true, rfl⟩⟩
    | false => exact hlock true

/-- The reserved file goes and the lock file is opened. -/
theorem prepare_spec {depth : Nat} (hdepth : deep ∨ WithinDepth w.fs config.reservedPath depth) :
    (do deletePath depth config.reservedPath; openGCLock config : Action Nat).wp
      (exec env config) deep (fun r w' => Prepared config w w' ∧
        ((∃ fd, r = .ok fd) → w'.fs.node config.gcLockPath ≠ none) ∧
        (env.Reliable → Layout config w.fs → ∃ fd, r = .ok fd)) w := by
  rw [Prog.bind_def, Prog.wp_bind]
  refine Prog.wp_mono (deletePath_spec (by simp [config.reservedPath_eq]) hdepth) ?_
  rw [parentDir_reserved]
  rintro r w' ⟨hdb, hpruned, hcomplete⟩
  have hkeeps : Keeps ({q | config.reservedPath <+: q} ∪ {config.gcLockPath})
      {config.dbDir, config.stateDir} w.fs w'.fs := by
    refine ⟨fun q hq ht => hpruned.outside q (fun h => hq (Or.inl h)) fun h => ht (Or.inl ?_),
      fun q hq => hpruned.untimed_of_not_prefix fun h => hq (Or.inl h),
      fun i _ => by rw [hpruned.inode], hpruned.nextIno.ge⟩
    rwa [parentDir_reserved] at h
  have hlock : w'.fs.node config.gcLockPath = w.fs.node config.gcLockPath :=
    hpruned.outside _ (reserved_not_gcLock config)
      (by rw [parentDir_reserved]; exact gcLock_ne_dbDir config)
  have hprepared : Prepared config w w' :=
    ⟨hdb, hkeeps, Or.inl hlock, fun q _ => hpruned.goneOrSame q⟩
  rcases r with e | _
  · exact ⟨hprepared, by simp, fun hrel hlayout => absurd (hcomplete hrel hlayout.db).1 (by simp)⟩
  · rw [Prog.next_ok, openGCLock, wp_sys]
    intro x fs hout
    rcases hout.openLock with ⟨⟨i, rfl⟩, ⟨rfl, hthere⟩ | ⟨inode, hcreated⟩⟩ | ⟨rfl, e, rfl, hfail⟩
    · exact ⟨hprepared, fun _ => hthere, fun _ _ => ⟨i, rfl⟩⟩
    · refine ⟨⟨hdb, hkeeps.trans (hcreated.keeps.mono ?_ ?_), ?_, ?_⟩,
        fun _ => by simp [hcreated.node], fun _ _ => ⟨i, rfl⟩⟩
      · rintro q rfl
        exact Or.inr rfl
      · rintro q rfl
        exact Or.inr (parentDir_gcLock config)
      · refine Or.inr ⟨by rw [← hlock, hcreated.free], _, ?_, hcreated.node⟩
        exact hpruned.nextIno.ge
      · intro q hq
        exact (hpruned.goneOrSame q).trans
          (FileSystem.goneOrSame_of_untimed (hcreated.keeps.untimed q (by simpa using hq)))
    · refine ⟨hprepared, by simp, fun hrel hlayout => ?_⟩
      have hfile := hlayout.gcLock
      rw [← hlock] at hfile
      rcases hfail with hfault | ⟨mode, mtime, hdir⟩ | ⟨target, i, hnode, hkind⟩ | hparent
      · exact absurd hfault (hrel.faults _ _)
      · obtain ⟨i, contents, hleaf, -⟩ := hfile _ hdir
        cases hleaf
      · obtain ⟨j, contents, hleaf, hregular⟩ := hfile _ hnode
        obtain rfl := Node.leaf.inj hleaf
        rw [hpruned.inode] at hkind
        rw [hregular] at hkind
        cases hkind
      · rw [parentDir_gcLock] at hparent
        refine absurd ((FileSystem.isDir_iff_of_untimed (hkeeps.untimed _ ?_)).mpr hlayout.state)
          hparent
        rintro (hmem | hmem)
        · have hlen := hmem.length_le
          simp [LocalStoreConfig.reservedPath, LocalStoreConfig.dbDir] at hlen
        · simp [LocalStoreConfig.gcLockPath] at hmem

end Prepare

/-! ## The whole run -/

/-- A run of `collectGarbage` that got past its first line, by its stages: `w₁` is the
state after the preparations, `w₂` the state after the loop over the named paths,
which got through `done` and took `taken`. -/
structure Collected (env : Environment) (config : LocalStoreConfig) (paths : List StorePath)
    (w w₁ : World) (roots : Roots) (done : List StorePath) (taken : Set StorePath) (w₂ : World)
    (r : Except Exception (List Bytes)) (w' : World) : Prop where
  prepared : Prepared config w w₁
  progress : Progress env config w₁ roots done taken w₂
  through : done <+: paths
  unrooted : Readable env config.gcRootsDir →
    ∀ p ∈ done, ¬ RootedBelow config w config.gcRootsDir p
  links : LinksPruned config w₂ [] w'
  returned : ∀ results, r = .ok results → done = paths ∧
    w₁.fs.node config.gcLockPath ≠ none ∧
    ((∀ e, ¬ env.faults (.readdir config.linksDir) e) → ∀ name,
      OnlyLink w₂.fs (config.linksDir ++ [name]) → w'.fs.node (config.linksDir ++ [name]) = none)
  thrown : ∀ e, r = .error e → env.Reliable → Layout config w.fs → w' = w₂ ∧
    ∃ p rest, paths = done ++ p :: rest ∧ RootedBelow config w config.gcRootsDir p

section Run

variable {env : Environment} {config : LocalStoreConfig} {deep : Prop} {w w₁ : World}

/-- No node is as many as `depth` levels deep. -/
def Shallow (fs : FileSystem) (depth : Nat) : Prop :=
  0 < depth ∧ ∀ q, fs.node q ≠ none → q.length < depth

theorem Shallow.within {fs : FileSystem} {depth : Nat} (h : Shallow fs depth) (path : Path) :
    WithinDepth fs path depth :=
  ⟨h.1, fun q _ hnode => (h.2 q hnode).trans_le (Nat.le_add_left _ _)⟩

/-- An exception before the loop over the named paths. -/
theorem Collected.early {paths : List StorePath} {e : Exception} (hprepared : Prepared config w w₁)
    (hfail : env.Reliable → ¬ Layout config w.fs) :
    Collected env config paths w w₁ [] [] ∅ w₁ (.error e) w₁ where
  prepared := hprepared
  progress := Progress.start _ _ _ _
  through := List.nil_prefix
  unrooted := by simp
  links := LinksPruned.start _ _ _
  returned := by simp
  thrown _ _ hrel hlayout := absurd hlayout (hfail hrel)

theorem collectGarbage_spec {depth : Nat} {options : GCOptions} (hdepth : deep ∨ Shallow w.fs depth)
    (hne : options.paths ≠ []) :
    (collectGarbage config depth options).wp (exec env config) deep (fun r w' =>
      ∃ w₁ roots done taken w₂,
        Collected env config options.paths w w₁ roots done taken w₂ r w') w := by
  have hwithin : ∀ path, deep ∨ WithinDepth w.fs path depth := fun path =>
    hdepth.imp id fun h => h.within path
  rw [collectGarbage, if_neg hne, ← bind_assoc, Prog.bind_def, Prog.wp_bind]
  refine Prog.wp_mono (prepare_spec (hwithin _)) ?_
  rintro (e | fd) w₁ ⟨hprepared, hlock, hfd⟩
  · exact ⟨w₁, [], [], ∅, w₁, .early hprepared fun hrel hlayout =>
      absurd (hfd hrel hlayout) (by simp)⟩
  rw [Prog.next_ok, Prog.bind_def, Prog.wp_bind]
  refine Prog.wp_mono fdLock_spec ?_
  rintro (e | got) w' ⟨hsame, hgot⟩ <;> obtain rfl := hsame.symm
  · exact ⟨w₁, [], [], ∅, w₁, .early hprepared fun hrel => absurd (hgot hrel) (by simp)⟩
  rw [Prog.next_ok, Prog.bind_def, Prog.wp_bind]
  refine Prog.wp_mono (findRoots_spec none trivial ((hwithin _).imp id fun h =>
    hprepared.withinDepth (Or.inr (List.prefix_refl _)) h)) ?_
  rintro (e | roots) w' hfound <;> obtain rfl := hfound.same.symm
  · exact ⟨w₁, [], [], ∅, w₁, .early hprepared fun hrel =>
      absurd (hfound.complete hrel) (by simp)⟩
  have hroots : Readable env config.gcRootsDir → ∀ p, p ∈ roots ↔
      RootedBelow config w config.gcRootsDir p := fun hread p => by
    rw [hfound.roots hread roots rfl p, hprepared.rootedBelow_iff]
    simp
  have hunrooted : ∀ {done taken w₂}, Progress env config w₁ roots done taken w₂ →
      Readable env config.gcRootsDir → ∀ p ∈ done, ¬ RootedBelow config w config.gcRootsDir p :=
    fun hprogress hread p hp hrooted => hprogress.unrooted p hp ((hroots hread p).mpr hrooted)
  rw [Prog.next_ok, Prog.bind_def, Prog.wp_bind]
  refine Prog.wp_mono (collectPaths_spec options.sorted (hdepth.imp id fun h p =>
    hprepared.withinDepth (Or.inl (realStoreDir_prefix_toRealPath config p)) (h.within _))) ?_
  have hsteady : env.Reliable → Layout config w.fs → Steady env config w₁ := fun hrel hlayout =>
    ⟨hrel, (hprepared.isDir_iff (Or.inl (List.prefix_refl _))).mpr hlayout.store⟩
  rintro (e | results) w₂ hpaths
  · obtain ⟨done, taken, hthrough, hprogress, hrooted⟩ := hpaths
    refine ⟨w₁, roots, done, taken, w₂, hprepared, hprogress, hthrough, hunrooted hprogress,
      LinksPruned.start _ _ _, by simp, fun _ _ hrel hlayout => ⟨rfl, ?_⟩⟩
    obtain ⟨p, rest, hpaths, hp⟩ := hrooted (hsteady hrel hlayout)
    exact ⟨p, rest, hpaths, (hroots (hrel.readable _) p).mp hp⟩
  · obtain ⟨taken, hprogress⟩ := hpaths
    rw [Prog.next_ok, Prog.bind_def, Prog.wp_bind]
    refine Prog.wp_mono removeUnusedLinks_spec ?_
    rintro r w' ⟨hlinks, hgone, hok⟩
    have hlinksDir : Layout config w.fs → w₂.fs.IsDir config.linksDir := fun hlayout => by
      refine (FileSystem.isDir_iff_of_untimed (hprogress.keeps.untimed _ ?_)).mpr
        ((hprepared.isDir_iff (Or.inl (realStoreDir_prefix_linksDir config))).mpr hlayout.links)
      rintro ⟨p, -, hbelow⟩
      exact config.not_toRealPath_links p (str "x") (hbelow.trans (List.prefix_append _ _))
    rcases r with e | _
    · exact ⟨w₁, roots, _, taken, w₂, hprepared, hprogress, List.prefix_refl _, hunrooted hprogress,
        hlinks, by simp, fun _ _ hrel hlayout => absurd (hok hrel (hlinksDir hlayout)) (by simp)⟩
    · exact ⟨w₁, roots, _, taken, w₂, hprepared, hprogress, List.prefix_refl _, hunrooted hprogress,
        hlinks, fun _ _ => ⟨rfl, hlock ⟨fd, rfl⟩, hgone rfl⟩, by simp⟩

/-- On a store that is not too deep every run gets to an end. -/
theorem collectGarbage_total (env : Environment) {depth : Nat} (options : GCOptions) (hdepth : Shallow w.fs depth)
    (hne : options.paths ≠ []) :
    ∃ r w', Prog.Ends (exec env config) w (collectGarbage config depth options) r w' :=
  (collectGarbage_spec (Or.inr hdepth) hne).total (exec_total env config)

end Run

end Store
end Archinix
