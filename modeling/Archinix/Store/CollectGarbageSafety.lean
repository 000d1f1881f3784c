import Archinix.Store.CollectGarbageRun

/-!
# What the collector may delete

`collectGarbage_deletes_only_named`: however a run of `collectGarbage` ends and
whatever fails on the way, rooted paths, paths another valid path refers to and
paths that were not named are left as they were, and so is everything outside the
store.  A run that comes to its end has taken from `.links` exactly the entries
that were the last link to their inode.
-/

namespace Archinix
namespace Store

open Foundation Util Host

/-- The path is registered as before, with every node of its tree as before. -/
structure Kept (config : LocalStoreConfig) (w w' : World) (p : StorePath) : Prop where
  row : w'.db.queryPathInfo p = w.db.queryPathInfo p
  node : ∀ q, config.toRealPath p <+: q → w'.fs.node q = w.fs.node q
  inode : ∀ q i, config.toRealPath p <+: q → w.fs.node q = some (.leaf i) →
    w'.fs.inode i = w.fs.inode i

/-- Some symlink below `gcroots` has the printed path, or something below it, for
its target. -/
def Rooted (config : LocalStoreConfig) (w : World) (p : StorePath) : Prop :=
  ∃ q rest, config.gcRootsDir <+: q ∧ SymlinkAt w.fs q (config.printStorePath p ++ rest) ∧
    (rest = [] ∨ rest.head? = some 47)

/-- Every other link the inode `i` of an entry of `.links` had was outside `.links`
and has gone. -/
def LastLink (config : LocalStoreConfig) (fs fs' : FileSystem) (name : Name) (i : Nat) : Prop :=
  ∀ q, q ≠ config.linksDir ++ [name] → fs.node q = some (.leaf i) →
    fs'.node q = none ∧ ∀ name', q ≠ config.linksDir ++ [name']

/-- The entries of `.links` that have gone are exactly the last links to their inodes. -/
def LinksExact (config : LocalStoreConfig) (fs fs' : FileSystem) : Prop :=
  ∀ name i, fs.node (config.linksDir ++ [name]) = some (.leaf i) →
    (fs'.node (config.linksDir ++ [name]) = none ↔ LastLink config fs fs' name i)

/-- What a run of the collector may change. -/
structure OnlyCollected (config : LocalStoreConfig) (paths : List StorePath) (w w' : World) :
    Prop where
  /-- All changes are in the reserved file, the lock file, the named trees and
  `.links`, and in the times of the directories these lie in. -/
  keeps : Keeps
    ({q | config.reservedPath <+: q} ∪ {config.gcLockPath} ∪ Below config {p | p ∈ paths} ∪
      {q | ∃ name, q = config.linksDir ++ [name]})
    {config.dbDir, config.stateDir, config.realStoreDir, config.linksDir} w.fs w'.fs
  lock : LockOpened config w.fs w'.fs
  /-- Nothing else is made, and what is left of a tree links to the same inodes. -/
  shrinks : ∀ q, q ≠ config.gcLockPath → w.fs.GoneOrSame w'.fs q
  /-- An entry of `.links` that has gone was the last link to its inode. -/
  links : ∀ name, w'.fs.node (config.linksDir ++ [name]) = w.fs.node (config.linksDir ++ [name]) ∨
    (w'.fs.node (config.linksDir ++ [name]) = none ∧
      ∃ i, w.fs.node (config.linksDir ++ [name]) = some (.leaf i) ∧
        LastLink config w.fs w'.fs name i)
  /-- Rows are not rewritten, and `Refs` loses the rows of unregistered paths. -/
  row : ∀ p, w'.db.queryPathInfo p = w.db.queryPathInfo p ∨ w'.db.queryPathInfo p = none
  refers : ∀ p q, w'.db.Refers p q ↔ w.db.Refers p q ∧ w'.db.Valid p ∧ w'.db.Valid q

section Safety

variable {env : Environment} {config : LocalStoreConfig} {paths : List StorePath}
  {w w₁ w₂ w' : World} {roots : Roots} {done : List StorePath} {taken : Set StorePath}
  {r : Except Exception (List Bytes)} {p q : StorePath}

theorem Kept.refl (config : LocalStoreConfig) (w : World) (p : StorePath) : Kept config w w p :=
  ⟨rfl, fun _ _ => rfl, fun _ _ _ _ => rfl⟩

theorem OnlyCollected.refl (config : LocalStoreConfig) (paths : List StorePath) (w : World) :
    OnlyCollected config paths w w where
  keeps := .refl _ _ _
  lock := Or.inl rfl
  shrinks _ _ := Or.inr rfl
  links _ := Or.inl rfl
  row _ := Or.inl rfl
  refers _ _ := ⟨fun h => ⟨h, h.valid_left, h.valid_right⟩, fun h => h.1⟩

theorem Rooted.below (h : Rooted config w p) (hvalid : w.db.Valid p) :
    RootedBelow config w config.gcRootsDir p := by
  obtain ⟨q, rest, hq, hlink, hrest⟩ := h
  exact ⟨hvalid, q, hq, rootLink_of_printStorePath hlink hrest⟩

theorem not_mem_links_of_below {path : Path} (h : config.toRealPath p <+: path) :
    path ∉ {q | ∃ name, q = config.linksDir ++ [name]} ∧ path ≠ config.linksDir ∧
      path ≠ config.realStoreDir := by
  refine ⟨?_, ?_, ?_⟩
  · rintro ⟨name, rfl⟩
    exact config.not_toRealPath_links p name h
  · rintro rfl
    exact config.not_toRealPath_links p (str "x") (h.trans (List.prefix_append _ _))
  · rintro rfl
    exact config.toRealPath_ne_realStoreDir p h

/-- What has not been taken is as it was. -/
theorem Collected.kept (h : Collected env config paths w w₁ roots done taken w₂ r w')
    (hp : p ∉ taken) : Kept config w w' p := by
  have hnode : ∀ path, config.toRealPath p <+: path → w'.fs.node path = w.fs.node path := by
    intro path hpath
    obtain ⟨hlinks, hlinksDir, hstore⟩ := not_mem_links_of_below hpath
    rw [h.links.keeps.node path hlinks hlinksDir, h.progress.keeps.node path ?_ hstore,
      h.prepared.node_eq (Or.inl ((realStoreDir_prefix_toRealPath config p).trans hpath))]
    rintro ⟨q, hq, hbelow⟩
    exact hp (config.toRealPath_disjoint hpath hbelow ▸ hq)
  refine ⟨?_, hnode, fun path i hpath hleaf => ?_⟩
  · rw [h.links.db, (h.progress.row p).2 hp, h.prepared.db]
  · have hi := w.fs.ino_lt path i hleaf
    have hi₁ := hi.trans_le h.prepared.keeps.nextIno
    rw [h.links.keeps.inode i (hi₁.trans_le h.progress.keeps.nextIno),
      h.progress.keeps.inode i hi₁, h.prepared.keeps.inode i hi]

theorem Collected.valid_iff (h : Collected env config paths w w₁ roots done taken w₂ r w') :
    w'.db.Valid p ↔ w.db.Valid p ∧ p ∉ taken := by
  by_cases hp : p ∈ taken
  · simp [Database.Valid, Database.isValidPath_, h.links.db, (h.progress.row p).1 hp, hp]
  · simp [Database.Valid, Database.isValidPath_, (h.kept hp).row, hp]

theorem Collected.not_taken_of_rooted (h : Collected env config paths w w₁ roots done taken w₂ r w')
    (hread : Readable env config.gcRootsDir) (hvalid : w.db.Valid p) (hrooted : Rooted config w p) :
    p ∉ taken := fun hp =>
  h.unrooted hread p (h.progress.subset p hp) (hrooted.below hvalid)

theorem Collected.not_taken_of_refers (h : Collected env config paths w w₁ roots done taken w₂ r w')
    (hne : p ≠ q) (href : w.db.Refers p q) (hvalid : w'.db.Valid p) : q ∉ taken := fun hq => by
  rw [← h.prepared.db] at href
  exact (h.valid_iff.mp hvalid).2 (h.progress.referrers q hq p hne href).1

theorem Collected.not_taken_of_unnamed (h : Collected env config paths w w₁ roots done taken w₂ r w')
    (hp : p ∉ paths) : p ∉ taken := fun htaken =>
  hp (h.through.subset (h.progress.subset p htaken))

/-- Up to the loop over `.links`, its entries are as they were. -/
theorem Collected.links_before (h : Collected env config paths w w₁ roots done taken w₂ r w')
    (name : Name) :
    w₂.fs.node (config.linksDir ++ [name]) = w.fs.node (config.linksDir ++ [name]) := by
  rw [h.progress.keeps.node, h.prepared.node_eq (Or.inl ?_)]
  · exact (realStoreDir_prefix_linksDir config).trans (List.prefix_append _ _)
  · rintro ⟨p, -, hbelow⟩
    exact config.not_toRealPath_links p name hbelow
  · intro heq
    have hlen := congrArg List.length heq
    simp [LocalStoreConfig.linksDir] at hlen

theorem gcLockPath_ne_links (name : Name) : config.gcLockPath ≠ config.linksDir ++ [name] := by
  intro h
  simp only [config.gcLockPath_eq, config.linksDir_eq, List.append_assoc,
    List.append_cancel_left_eq, List.cons_append, List.cons.injEq] at h
  exact absurd h.2.1 (by decide)

/-- After the preparations the lock file stays. -/
theorem Collected.gcLock (h : Collected env config paths w w₁ roots done taken w₂ r w') :
    w₂.fs.node config.gcLockPath = w₁.fs.node config.gcLockPath ∧
      w'.fs.node config.gcLockPath = w₂.fs.node config.gcLockPath := by
  have hne : config.gcLockPath ≠ config.realStoreDir ∧ config.gcLockPath ≠ config.linksDir := by
    simp only [LocalStoreConfig.gcLockPath, LocalStoreConfig.stateDir, config.linksDir_eq,
      LocalStoreConfig.realStoreDir, List.append_assoc, ne_eq, List.append_cancel_left_eq]
    decide
  refine ⟨h.progress.keeps.node _ ?_ hne.1, h.links.keeps.node _ ?_ hne.2⟩
  · rintro ⟨p, -, hp⟩
    exact config.not_toRealPath_stateDir p [str "gc.lock"] hp
  · rintro ⟨name, hname⟩
    exact gcLockPath_ne_links name hname

/-- Outside `.links` its loop leaves the links as they are. -/
theorem LinksPruned.outside (h : LinksPruned config w₂ [] w') {path : Path}
    (hpath : ∀ name, path ≠ config.linksDir ++ [name]) {i : Nat} :
    w'.fs.node path = some (.leaf i) ↔ w₂.fs.node path = some (.leaf i) := by
  rw [← FileSystem.untimed_eq_leaf, ← FileSystem.untimed_eq_leaf,
    h.keeps.untimed _ fun ⟨name, hname⟩ => hpath name hname]

/-- A link there was before the loop over `.links` to an inode of the old state is an
old link. -/
theorem Collected.old_link (h : Collected env config paths w w₁ roots done taken w₂ r w')
    {path : Path} {i : Nat} (hi : i < w.fs.nextIno) (hleaf : w₂.fs.node path = some (.leaf i)) :
    w.fs.node path = some (.leaf i) := by
  by_cases hpath : path = config.gcLockPath
  · subst hpath
    rw [h.gcLock.1] at hleaf
    rcases h.prepared.lock with hsame | ⟨-, j, hj, hnew⟩
    · rw [← hsame, hleaf]
    · rw [hnew, Option.some.injEq, Node.leaf.injEq] at hleaf
      omega
  · exact ((h.prepared.shrinks path hpath).trans (h.progress.shrinks path)).leaf hleaf

/-- An old link is still there, or nothing is. -/
theorem Collected.gone_or_link (h : Collected env config paths w w₁ roots done taken w₂ r w')
    {path : Path} {i : Nat} (hleaf : w.fs.node path = some (.leaf i)) :
    w₂.fs.node path = none ∨ w₂.fs.node path = some (.leaf i) := by
  by_cases hpath : path = config.gcLockPath
  · subst hpath
    rw [h.gcLock.1]
    rcases h.prepared.lock with hsame | ⟨hnone, -⟩
    · exact Or.inr (hsame.trans hleaf)
    · rw [hnone] at hleaf
      cases hleaf
  · exact ((h.prepared.shrinks path hpath).trans (h.progress.shrinks path)).of_leaf hleaf

/-- An entry of `.links` is its inode's only link after the deletions just when it is
the last one. -/
theorem Collected.onlyLink_iff (h : Collected env config paths w w₁ roots done taken w₂ r w')
    {name : Name} {i : Nat} (hi : w.fs.node (config.linksDir ++ [name]) = some (.leaf i)) :
    OnlyLink w₂.fs (config.linksDir ++ [name]) ↔ LastLink config w.fs w'.fs name i := by
  have hi₂ := (h.links_before name).trans hi
  constructor
  · rintro ⟨j, hj, honly⟩ q hne hq
    obtain rfl : j = i := by simpa [hi₂] using hj.symm
    have hlinks : ∀ name', q ≠ config.linksDir ++ [name'] := by
      rintro name' rfl
      exact hne (honly _ ((h.links_before name').trans hq))
    refine ⟨?_, hlinks⟩
    rcases h.gone_or_link hq with hnone | hleaf
    · have hsame := h.links.keeps.untimed q fun ⟨name', hname⟩ => hlinks name' hname
      rwa [FileSystem.untimed, FileSystem.untimed, hnone, Option.map_none,
        Option.map_eq_none_iff] at hsame
    · exact absurd (honly q hleaf) hne
  · intro hlast
    refine ⟨i, hi₂, fun q hq => ?_⟩
    by_contra hne
    obtain ⟨hnone, hlinks⟩ := hlast q hne (h.old_link (w.fs.ino_lt _ i hi) hq)
    rw [(h.links.outside hlinks).mpr hq] at hnone
    cases hnone

/-- An entry of `.links` that has gone was the last link to its inode. -/
theorem Collected.links_gone (h : Collected env config paths w w₁ roots done taken w₂ r w')
    (name : Name) :
    w'.fs.node (config.linksDir ++ [name]) = w.fs.node (config.linksDir ++ [name]) ∨
    (w'.fs.node (config.linksDir ++ [name]) = none ∧
      ∃ i, w.fs.node (config.linksDir ++ [name]) = some (.leaf i) ∧
        LastLink config w.fs w'.fs name i) := by
  rcases h.links.sole (config.linksDir ++ [name]) with hsame | hdir | ⟨hgone, honly, -⟩
  · exact Or.inl (hsame.trans (h.links_before name))
  · exact absurd hdir (linksDir_ne config name)
  · obtain ⟨i, hi, -⟩ := id honly
    rw [h.links_before name] at hi
    exact Or.inr ⟨hgone, i, hi, (h.onlyLink_iff hi).mp honly⟩

theorem Collected.linksExact (h : Collected env config paths w w₁ roots done taken w₂ r w')
    (hok : ∃ results, r = .ok results) (hread : ∀ e, ¬ env.faults (.readdir config.linksDir) e) :
    LinksExact config w.fs w'.fs := by
  obtain ⟨results, hr⟩ := hok
  obtain ⟨-, -, hall⟩ := h.returned results hr
  intro name i hi
  constructor
  · intro hgone
    rcases h.links_gone name with hsame | ⟨-, j, hj, hlast⟩
    · rw [hgone, hi] at hsame
      cases hsame
    · obtain rfl : j = i := by simpa [hi] using hj.symm
      exact hlast
  · exact fun hlast => hall hread name ((h.onlyLink_iff hi).mpr hlast)

/-- Nothing is made but the lock file. -/
theorem Collected.shrinks (h : Collected env config paths w w₁ roots done taken w₂ r w')
    {path : Path} (hpath : path ≠ config.gcLockPath) : w.fs.GoneOrSame w'.fs path := by
  refine ((h.prepared.shrinks path hpath).trans (h.progress.shrinks path)).trans ?_
  rcases h.links.sole path with hsame | rfl | ⟨hgone, -⟩
  · exact Or.inr (FileSystem.shape_eq_of_node hsame)
  · exact FileSystem.goneOrSame_of_untimed
      (h.links.keeps.untimed _ fun ⟨name, hname⟩ => linksDir_ne config name hname.symm)
  · exact Or.inl hgone

theorem Collected.onlyCollected (h : Collected env config paths w w₁ roots done taken w₂ r w') :
    OnlyCollected config paths w w' where
  keeps := by
    refine ((h.prepared.keeps.mono ?_ ?_).trans (h.progress.keeps.mono ?_ ?_)).trans
      (h.links.keeps.mono ?_ ?_)
    · exact Set.subset_union_left.trans Set.subset_union_left
    · rintro q (rfl | rfl) <;> simp
    · rintro q ⟨p, hp, hbelow⟩
      exact Or.inl (Or.inr ⟨p, h.through.subset (h.progress.subset p hp), hbelow⟩)
    · rintro q rfl
      simp
    · exact Set.subset_union_right
    · rintro q rfl
      simp
  lock := by
    rw [LockOpened, h.gcLock.2, h.gcLock.1]
    exact h.prepared.lock
  shrinks _ hpath := h.shrinks hpath
  links := h.links_gone
  row p := by
    by_cases hp : p ∈ taken
    · exact Or.inr (by rw [h.links.db, (h.progress.row p).1 hp])
    · exact Or.inl (h.kept hp).row
  refers p q := by
    rw [h.valid_iff, h.valid_iff, h.links.db, h.progress.refers, h.prepared.db]
    constructor
    · rintro ⟨href, hp, hq⟩
      exact ⟨href, ⟨href.valid_left, hp⟩, href.valid_right, hq⟩
    · rintro ⟨href, ⟨-, hp⟩, -, hq⟩
      exact ⟨href, hp, hq⟩

/-- However a run of `collectGarbage` ends: rooted valid paths, paths another
still-valid path refers to and paths that were not named are kept, and nothing but
the named trees, `.links`, the reserved file and the lock file changes.  If it returns
and was given a path, `.links` has lost exactly the entries that were the last link
to their inode. -/
theorem collectGarbage_deletes_only_named {depth : Nat} {options : GCOptions}
    (hends : Prog.Ends (exec env config) w (collectGarbage config depth options) r w')
    (hread : Readable env config.gcRootsDir) :
    (∀ p, w.db.Valid p → Rooted config w p → Kept config w w' p) ∧
    (∀ p q, p ≠ q → w.db.Refers p q → w'.db.Valid p → Kept config w w' q) ∧
    (∀ p, p ∉ options.paths → Kept config w w' p) ∧
    ((∃ results, r = .ok results) → options.paths ≠ [] →
      (∀ e, ¬ env.faults (.readdir config.linksDir) e) → LinksExact config w.fs w'.fs) ∧
    (options.paths = [] → r = .ok [] ∧ w' = w) ∧
    OnlyCollected config options.paths w w' := by
  by_cases hne : options.paths = []
  · rw [collectGarbage, if_pos hne] at hends
    obtain ⟨rfl, rfl⟩ : r = .ok [] ∧ w' = w := by
      cases hends
      exact ⟨rfl, rfl⟩
    exact ⟨fun _ _ _ => .refl _ _ _, fun _ _ _ _ _ => .refl _ _ _, fun _ _ => .refl _ _ _,
      fun _ h => absurd hne h, fun _ => ⟨rfl, rfl⟩, .refl _ _ _⟩
  · obtain ⟨w₁, roots, done, taken, w₂, h⟩ :=
      (collectGarbage_spec (Or.inl trivial) hne).ends hends
    refine ⟨fun p hvalid hrooted => h.kept (h.not_taken_of_rooted hread hvalid hrooted),
      fun p q hpq href hvalid => h.kept (h.not_taken_of_refers hpq href hvalid),
      fun p hp => h.kept (h.not_taken_of_unnamed hp), fun hok _ hlinks => h.linksExact hok hlinks,
      fun h => absurd h hne, h.onlyCollected⟩

end Safety

/-! ## An example store -/

namespace Example

def config : LocalStoreConfig where
  toStoreDirConfig := .nixStore
  rootDir := []
  ignoreGcDeleteFailure := false

def free : StorePath := ⟨str "10000000000000000000000000000000-a", by decide, by decide⟩

def rooted : StorePath := ⟨str "10000000000000000000000000000001-b", by decide, by decide⟩

def directory : Node := .directory 0o755 1

/-- Two store paths, two names of one inode in `.links`, and a root. -/
def nodes : List (Path × Node) :=
  [([], directory), ([str "nix"], directory), (config.realStoreDir, directory),
   (config.toRealPath free, .leaf 0), (config.toRealPath rooted, .leaf 1),
   (config.linksDir, directory), (config.linksDir ++ [str "x"], .leaf 2),
   (config.linksDir ++ [str "y"], .leaf 2), ([str "nix", str "var"], directory),
   (config.stateDir, directory), (config.dbDir, directory), (config.gcRootsDir, directory),
   (config.gcRootsDir ++ [str "root"], .leaf 3)]

def inode : Nat → Inode
  | 3 => ⟨.symlink (config.printStorePath rooted), 0o777, 1⟩
  | _ => ⟨.regular [], 0o444, 1⟩

def row (id : Nat) (path : StorePath) : ValidPathRow := ⟨id, path, [], 0, none, none⟩

def world : World where
  fs := .ofNodes nodes inode 4 (by decide)
  db := {
    validPaths := [row 1 free, row 2 rooted]
    refs := []
    path_unique := by decide
    id_unique := by decide
    referrer_valid := by decide
    reference_valid := by decide }

def env : Environment := .reliable 0o022

theorem reliable : env.Reliable := Environment.reliable_reliable _

theorem layout : Layout config world.fs where
  store := ⟨_, _, rfl⟩
  links := ⟨_, _, rfl⟩
  db := ⟨_, _, rfl⟩
  state := ⟨_, _, rfl⟩
  gcLock n hn := by
    rw [show world.fs.node config.gcLockPath = none from rfl] at hn
    cases hn

theorem shallow : Shallow world.fs 10 := by
  refine ⟨by decide, fun q hq => ?_⟩
  have hall : ∀ p ∈ nodes.map (·.1), p.length < 10 := by decide
  exact hall q (world.fs.mem_dom q hq)

theorem rooted_link : SymlinkAt world.fs (config.gcRootsDir ++ [str "root"])
    (config.printStorePath rooted ++ []) :=
  ⟨3, by decide, by rw [List.append_nil]; rfl⟩

theorem rooted_rooted : Rooted config world rooted :=
  ⟨_, [], List.prefix_append _ _, rooted_link, Or.inl rfl⟩

/-- The link in `gcroots` roots one path and no other. -/
theorem eq_of_rootedBelow {p : StorePath} (h : RootedBelow config world config.gcRootsDir p) :
    p = rooted := by
  obtain ⟨-, q, hbelow, hlink⟩ := h
  have hpaths : ∀ q ∈ nodes.map (·.1), config.gcRootsDir <+: q →
      q = config.gcRootsDir ∨ q = config.gcRootsDir ++ [str "root"] := by decide
  rcases hpaths q (world.fs.mem_dom q hlink.exists) hbelow with rfl | rfl
  · obtain ⟨target, rest, ⟨i, hi, -⟩, -⟩ := hlink
    rw [show world.fs.node config.gcRootsDir = some directory by decide] at hi
    cases hi
  · exact RootLink.unique _ hlink (rootLink_of_printStorePath rooted_link (Or.inl rfl))

end Example

/-- With both paths named, the rooted one is kept. -/
theorem collectGarbage_deletes_only_named_example :
    ∃ r w', Prog.Ends (exec Example.env Example.config) Example.world
        (collectGarbage Example.config 10 ⟨[Example.free, Example.rooted], by decide⟩) r w' ∧
      Kept Example.config Example.world w' Example.rooted ∧
      OnlyCollected Example.config [Example.free, Example.rooted] Example.world w' := by
  obtain ⟨r, w', hends⟩ := collectGarbage_total Example.env ⟨[Example.free, Example.rooted], by decide⟩ Example.shallow (by simp)
  obtain ⟨hrooted, -, -, -, -, honly⟩ :=
    collectGarbage_deletes_only_named hends (Example.reliable.readable _)
  exact ⟨r, w', hends, hrooted _ (by decide) Example.rooted_rooted, honly⟩

/-- The entries of `.links` that have gone are those whose inode has no link left
outside `.links`. -/
def LinksWithoutOutside (config : LocalStoreConfig) (fs fs' : FileSystem) : Prop :=
  ∀ name i, fs.node (config.linksDir ++ [name]) = some (.leaf i) →
    (fs'.node (config.linksDir ++ [name]) = none ↔
      ∀ q, (∀ name', q ≠ config.linksDir ++ [name']) → fs'.node q ≠ some (.leaf i))

/-- Two names of one inode in `.links` keep each other, the lock file is made, and
without a path nothing happens at all. -/
theorem collectGarbage_keeps_shared_links :
    (∃ results w', Prog.Ends (exec Example.env Example.config) Example.world
        (collectGarbage Example.config 10 ⟨[Example.free], by decide⟩) (.ok results) w' ∧
      ¬ LinksWithoutOutside Example.config Example.world.fs w'.fs ∧
      Example.world.fs.node Example.config.gcLockPath = none ∧
      w'.fs.node Example.config.gcLockPath ≠ none) ∧
    Prog.Ends (exec Example.env Example.config) Example.world
        (collectGarbage Example.config 10 ⟨[], by decide⟩) (.ok []) Example.world ∧
      ¬ LinksWithoutOutside Example.config Example.world.fs Example.world.fs := by
  have hstay : ∀ {fs' : FileSystem}, (∀ path i, i < 4 → fs'.node path = some (.leaf i) →
      Example.world.fs.node path = some (.leaf i)) →
      fs'.node (Example.config.linksDir ++ [str "x"]) ≠ none →
      ¬ LinksWithoutOutside Example.config Example.world.fs fs' := by
    intro fs' hold hnone h
    refine hnone ((h (str "x") 2 (by decide)).mpr fun q hq hleaf => ?_)
    have hnodes : ∀ e ∈ Example.nodes, e.2 = .leaf 2 →
        e.1 = Example.config.linksDir ++ [str "x"] ∨ e.1 = Example.config.linksDir ++ [str "y"] := by
      decide
    rcases hnodes _ (FileSystem.mem_of_lookup (hold q 2 (by decide) hleaf)) rfl with hx | hy
    · exact hq _ hx
    · exact hq _ hy
  refine ⟨?_, .refl _ _, hstay (fun _ _ _ h => h) (by decide)⟩
  obtain ⟨r, w', hends⟩ := collectGarbage_total Example.env ⟨[Example.free], by decide⟩ Example.shallow (by simp)
  obtain ⟨w₁, roots, done, taken, w₂, h⟩ :=
    (collectGarbage_spec (Or.inl trivial) (by simp)).ends hends
  rcases r with e | results
  · obtain ⟨-, p, rest, hpaths, hrooted⟩ := h.thrown e rfl Example.reliable Example.layout
    have hp : p ∈ [Example.free] := by
      rw [show [Example.free] = done ++ p :: rest from hpaths]
      simp
    obtain rfl := List.mem_singleton.mp hp
    exact absurd (Example.eq_of_rootedBelow hrooted) (by decide)
  · obtain ⟨-, hlock, -⟩ := h.returned results rfl
    refine ⟨results, w', hends, hstay (fun path i hi hleaf => ?_) (fun hgone => ?_), by decide, ?_⟩
    · by_cases hlinks : ∃ name, path = Example.config.linksDir ++ [name]
      · obtain ⟨name, rfl⟩ := hlinks
        rcases h.links_gone name with hsame | ⟨hnone, -⟩
        · rwa [← hsame]
        · rw [hnone] at hleaf
          cases hleaf
      · push Not at hlinks
        exact h.old_link hi ((h.links.outside hlinks).mp hleaf)
    · rcases h.links_gone (str "x") with hsame | ⟨-, i, hi, hlast⟩
      · rw [hgone] at hsame
        exact absurd hsame (by decide)
      · obtain rfl : i = 2 := by
          rw [show Example.world.fs.node (Example.config.linksDir ++ [str "x"]) = some (.leaf 2)
            by decide] at hi
          exact (Node.leaf.inj (Option.some.inj hi)).symm
        exact (hlast (Example.config.linksDir ++ [str "y"]) (by decide) (by decide)).2 _ rfl
    · rwa [h.gcLock.2, h.gcLock.1]

end Store
end Archinix
