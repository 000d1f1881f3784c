import Archinix.Store.CollectGarbageSafety

/-!
# All or throw

The named paths all go, or `collectGarbage` throws and they are all as they were:
`collectGarbage_all_or_throw_iff` says for which stores and named paths this is so.
It fails when a path that goes sorts before a rooted one, and when a referenced
path is passed over.
-/

namespace Archinix
namespace Store

open Foundation Util Host

/-- The call threw and every named path is as it was, or it returned and no named
path is registered or on disk. -/
def AllOrThrow (config : LocalStoreConfig) (paths : List StorePath) (w : World)
    (r : Except Exception (List Bytes)) (w' : World) : Prop :=
  ((∃ e, r = .error e) ∧ ∀ p ∈ paths, Kept config w w' p) ∨
  ((∃ results, r = .ok results) ∧
    ∀ p ∈ paths, ¬ w'.db.Valid p ∧ w'.fs.node (config.toRealPath p) = none)

/-- A valid path with a link below `gcroots` that leads into it. -/
abbrev IsRoot (config : LocalStoreConfig) (w : World) (p : StorePath) : Prop :=
  RootedBelow config w config.gcRootsDir p

/-- No named path is rooted, and what refers to one is named and comes before it. -/
def AllGo (config : LocalStoreConfig) (paths : List StorePath) (w : World) : Prop :=
  ∀ p ∈ paths, ¬ IsRoot config w p ∧
    ∀ q, q ≠ p → w.db.Refers q p → q ∈ paths ∧ q < p

/-- A named path is rooted, and the named ones before every rooted one are in use or
not there at all. -/
def NoneGo (config : LocalStoreConfig) (paths : List StorePath) (w : World) : Prop :=
  (∃ p ∈ paths, IsRoot config w p) ∧
    ∀ q ∈ paths, (∀ p ∈ paths, IsRoot config w p → q < p) →
      w.db.InUse q ∨ (¬ w.db.Valid q ∧ w.fs.node (config.toRealPath q) = none)

theorem StorePath.lt_irrefl (p : StorePath) : ¬ p < p := List.lt_irrefl p.baseName

theorem StorePath.lt_trans {p q r : StorePath} (h : p < q) (h' : q < r) : p < r :=
  List.lt_trans h h'

/-- Induction along a set of store paths in ascending order. -/
theorem sorted_induction {P : StorePath → Prop} {paths : List StorePath}
    (hsorted : paths.Pairwise (· < ·))
    (h : ∀ q ∈ paths, (∀ p ∈ paths, p < q → P p) → P q) : ∀ q ∈ paths, P q := by
  induction paths using List.reverseRecOn with
  | nil => simp
  | append_singleton init last ih =>
      obtain ⟨hinit, -, hlast⟩ := List.pairwise_append.mp hsorted
      have hbefore : ∀ q ∈ init, P q := by
        refine ih hinit fun q hq hsmaller => h q (by simp [hq]) fun p hp hlt => ?_
        rcases List.mem_append.mp hp with hp | hp
        · exact hsmaller p hp hlt
        · obtain rfl := List.mem_singleton.mp hp
          exact absurd (StorePath.lt_trans hlt (hlast q hq p (by simp))) p.lt_irrefl
      intro q hq
      rcases List.mem_append.mp hq with hq | hq
      · exact hbefore q hq
      · obtain rfl := List.mem_singleton.mp hq
        refine h q (by simp) fun p hp hlt => ?_
        rcases List.mem_append.mp hp with hp | hp
        · exact hbefore p hp
        · obtain rfl := List.mem_singleton.mp hp
          exact absurd hlt p.lt_irrefl

section AllOrThrow

variable {env : Environment} {config : LocalStoreConfig} {options : GCOptions}
  {w w₁ w₂ w' : World} {roots : Roots} {done : List StorePath} {taken : Set StorePath}
  {r : Except Exception (List Bytes)} {p q : StorePath}

/-- A path that was taken and is as it was, was not there. -/
theorem Collected.kept_taken_iff
    (h : Collected env config options.paths w w₁ roots done taken w₂ r w')
    (hsteady : Steady env config w₁) (hp : p ∈ taken) :
    Kept config w w' p ↔ ¬ w.db.Valid p ∧ w.fs.node (config.toRealPath p) = none := by
  have hgone : w'.fs.node (config.toRealPath p) = none := by
    obtain ⟨hlinks, hlinksDir, -⟩ := not_mem_links_of_below (List.prefix_refl (config.toRealPath p))
    rw [h.links.keeps.node _ hlinks hlinksDir]
    exact h.progress.gone hsteady p hp
  have hrow : w'.db.queryPathInfo p = none := by
    rw [h.links.db]
    exact (h.progress.row p).1 hp
  constructor
  · intro hkept
    refine ⟨?_, ?_⟩
    · rw [Database.Valid, Database.isValidPath_, ← hkept.row, hrow]
      simp
    · rw [← hkept.node _ (List.prefix_refl _), hgone]
  · rintro ⟨hvalid, hnone⟩
    have hbelow : ∀ {fs : FileSystem} path, config.toRealPath p <+: path →
        fs.node (config.toRealPath p) = none → fs.node path = none := by
      rintro fs _ ⟨rest, rfl⟩ hroot
      by_contra hnode
      exact FileSystem.exists_of_below hnode hroot
    refine ⟨?_, fun path hpath => ?_, fun path i hpath hleaf => ?_⟩
    · rw [hrow, eq_comm]
      simpa [Database.Valid, Database.isValidPath_] using hvalid
    · rw [hbelow path hpath hgone, hbelow path hpath hnone]
    · rw [hbelow path hpath hnone] at hleaf
      cases hleaf

theorem Collected.not_valid_of_taken
    (h : Collected env config options.paths w w₁ roots done taken w₂ r w')
    (hp : p ∈ taken) : ¬ w'.db.Valid p := fun hvalid => (h.valid_iff.mp hvalid).2 hp

/-- A path got to and not taken is in use. -/
theorem Collected.inUse_of_not_taken
    (h : Collected env config options.paths w w₁ roots done taken w₂ r w')
    (hsteady : Steady env config w₁) (hq : q ∈ done) (htaken : q ∉ taken) :
    ∃ p, p ≠ q ∧ w.db.Refers p q ∧ ¬ (p ∈ taken ∧ p < q) := by
  by_contra hnone
  push Not at hnone
  refine htaken (h.progress.all hsteady q hq fun p hne href => ?_)
  rw [h.prepared.db] at href
  exact hnone p hne href

theorem Collected.steady (h : Collected env config options.paths w w₁ roots done taken w₂ r w')
    (hrel : env.Reliable) (hlayout : Layout config w.fs) : Steady env config w₁ :=
  ⟨hrel, (h.prepared.isDir_iff (Or.inl (List.prefix_refl _))).mpr hlayout.store⟩

/-- A run that returns has taken every named path just when all could go. -/
theorem Collected.returned_iff (h : Collected env config options.paths w w₁ roots done taken w₂ r w')
    (hrel : env.Reliable) (hlayout : Layout config w.fs) {results : List Bytes}
    (hr : r = .ok results) :
    (∀ p ∈ options.paths, ¬ w'.db.Valid p ∧ w'.fs.node (config.toRealPath p) = none) ↔
      AllGo config options.paths w := by
  obtain ⟨rfl, -, -⟩ := h.returned results hr
  have hsteady := h.steady hrel hlayout
  have hrefers : ∀ p q, w₁.db.Refers p q ↔ w.db.Refers p q := fun p q => by rw [h.prepared.db]
  constructor
  · intro hgone p hp
    refine ⟨h.unrooted (hrel.readable _) p hp, fun q hne href => ?_⟩
    have htaken : p ∈ taken := by
      by_contra htaken
      exact (hgone p hp).1 (h.valid_iff.mpr ⟨href.valid_right, htaken⟩)
    obtain ⟨hq, hlt⟩ := h.progress.referrers p htaken q hne ((hrefers q p).mpr href)
    exact ⟨h.progress.subset q hq, hlt⟩
  · intro hall
    have htaken : ∀ p ∈ options.paths, p ∈ taken := by
      refine sorted_induction options.sorted fun p hp hsmaller => ?_
      refine h.progress.all hsteady p hp fun q hne href => ?_
      obtain ⟨hq, hlt⟩ := (hall p hp).2 q hne ((hrefers q p).mp href)
      exact ⟨hsmaller q hq hlt, hlt⟩
    intro p hp
    refine ⟨h.not_valid_of_taken (htaken p hp), ?_⟩
    obtain ⟨hlinks, hlinksDir, -⟩ := not_mem_links_of_below (List.prefix_refl (config.toRealPath p))
    rw [h.links.keeps.node _ hlinks hlinksDir]
    exact h.progress.gone hsteady p (htaken p hp)

/-- A run that throws has left every named path as it was just when none before the
rooted one could go. -/
theorem Collected.thrown_iff (h : Collected env config options.paths w w₁ roots done taken w₂ r w')
    (hrel : env.Reliable) (hlayout : Layout config w.fs) {e : Exception} (hr : r = .error e) :
    (∀ p ∈ options.paths, Kept config w w' p) ↔ NoneGo config options.paths w := by
  obtain ⟨-, p, rest, hpaths, hrooted⟩ := h.thrown e hr hrel hlayout
  have hsteady := h.steady hrel hlayout
  have hsorted := options.sorted
  rw [hpaths, List.pairwise_append, List.pairwise_cons] at hsorted
  obtain ⟨hdone, ⟨hrest, -⟩, hbefore⟩ := hsorted
  have hunrooted := h.unrooted (hrel.readable _)
  -- the paths got to are those before every rooted one
  have hfirst : ∀ q ∈ options.paths, q ∈ done ↔
      ∀ p ∈ options.paths, IsRoot config w p → q < p := by
    intro q hq
    constructor
    · intro hmem p' hp' hroot
      rw [hpaths] at hp'
      rcases List.mem_append.mp hp' with hp' | hp'
      · exact absurd hroot (hunrooted p' hp')
      · exact hbefore q hmem p' hp'
    · intro hlt
      have hqp := hlt p (by simp [hpaths]) hrooted
      rw [hpaths] at hq
      rcases List.mem_append.mp hq with hq | hq
      · exact hq
      · rcases List.mem_cons.mp hq with rfl | hq
        · exact absurd hqp q.lt_irrefl
        · exact absurd (StorePath.lt_trans hqp (hrest q hq)) q.lt_irrefl
  constructor
  · intro hkept
    refine ⟨⟨p, by simp [hpaths], hrooted⟩, fun q hq hlt => ?_⟩
    have hmem := (hfirst q hq).mpr hlt
    by_cases htaken : q ∈ taken
    · exact Or.inr ((h.kept_taken_iff hsteady htaken).mp (hkept q hq))
    · obtain ⟨referrer, hne, href, -⟩ := h.inUse_of_not_taken hsteady hmem htaken
      exact Or.inl ⟨referrer, hne, href⟩
  · rintro ⟨-, hnone⟩
    have hnamed : ∀ q ∈ done, q ∈ options.paths := fun q hq => by simp [hpaths, hq]
    -- a path in use is not taken: what refers to it would be in use and taken before it
    have hinUse : ∀ q ∈ done, w.db.InUse q → q ∉ taken := by
      refine sorted_induction hdone fun q hq hsmaller => ?_
      rintro ⟨referrer, hne, href⟩ htaken
      obtain ⟨hreferrer, hlt⟩ := h.progress.referrers q htaken referrer hne
        (by rwa [h.prepared.db])
      have hmem := h.progress.subset referrer hreferrer
      rcases hnone referrer (hnamed referrer hmem) ((hfirst referrer (hnamed referrer hmem)).mp hmem)
        with hused | ⟨hvalid, -⟩
      · exact hsmaller referrer hmem hlt hused hreferrer
      · exact hvalid href.valid_left
    intro q hq
    by_cases htaken : q ∈ taken
    · have hmem := h.progress.subset q htaken
      rcases hnone q hq ((hfirst q hq).mp hmem) with hused | habsent
      · exact absurd htaken (hinUse q hmem hused)
      · exact (h.kept_taken_iff hsteady htaken).mpr habsent
    · exact h.kept htaken

end AllOrThrow

end Store
end Archinix
