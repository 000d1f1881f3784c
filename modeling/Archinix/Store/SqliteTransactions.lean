import Archinix.Store.Sqlite

/-!
# What the transactions compute

`Tables.Sound` is what the schema enforces of tables that only the functions of
`local-store.cc` have written: every statement they run keeps it.  Over such tables the
readings of `registerTransaction` and `invalidateTransaction` are computed in closed form.
-/

namespace Archinix
namespace Store
namespace Sqlite

open Foundation Util

/-- Code as it computes on the tables when no statement fails. -/
abbrev Reading := StateT Tables (Except Error)

namespace Tables

/-- Both ends of every row of `Refs` are rows of `ValidPaths`. -/
def RefsClosed (t : Tables) : Prop :=
  ∀ e ∈ t.refs, e.1 ∈ t.validPaths.map (·.id) ∧ e.2 ∈ t.validPaths.map (·.id)

/-- Unique paths and ids, no dangling references, and paths spelled as the store spells
them. -/
structure Sound (t : Tables) (cfg : StoreDirConfig) : Prop where
  path_unique : (t.validPaths.map (·.path)).Nodup
  id_unique : (t.validPaths.map (·.id)).Nodup
  refs_unique : t.refs.Nodup
  refsClosed : t.RefsClosed
  printed : ∀ row ∈ t.validPaths, ∃ p, row.path = cfg.printStorePath p

/-- The path has a row. -/
def Registered (t : Tables) (cfg : StoreDirConfig) (p : StorePath) : Prop :=
  cfg.printStorePath p ∈ t.validPaths.map (·.path)

/-- `Refs` has a row from one path to another. -/
def Refers (t : Tables) (cfg : StoreDirConfig) (p q : StorePath) : Prop :=
  ∃ a ∈ t.validPaths, ∃ b ∈ t.validPaths, a.path = cfg.printStorePath p ∧
    b.path = cfg.printStorePath q ∧ (a.id, b.id) ∈ t.refs

/-- Another path refers to the path. -/
def InUse (t : Tables) (cfg : StoreDirConfig) (p : StorePath) : Prop := ∃ q ≠ p, t.Refers cfg q p

variable {t : Tables} {cfg : StoreDirConfig} {p q : StorePath}

theorem sound_empty : empty.Sound cfg := by
  constructor <;> simp [empty, RefsClosed]

theorem newId_notMem (t : Tables) : t.newId ∉ t.validPaths.map (·.id) := by
  have hle : ∀ (ids : List Nat) (m : Nat), ∀ n ∈ ids, n ≤ ids.foldr max m := by
    intro ids m
    induction ids with
    | nil => simp
    | cons k ids ih =>
        intro n hn
        rcases List.mem_cons.mp hn with rfl | hn
        · exact le_max_left _ _
        · exact (ih n hn).trans (le_max_right _ _)
  intro hmem
  have hlast := hle _ t.sequence _ hmem
  unfold newId at hlast
  omega

namespace Sound

variable (h : t.Sound cfg) {a b row : Row}

include h

theorem eq_of_path (ha : a ∈ t.validPaths) (hb : b ∈ t.validPaths) (hab : a.path = b.path) : a = b :=
  List.inj_on_of_nodup_map h.path_unique ha hb hab

theorem eq_of_id (ha : a ∈ t.validPaths) (hb : b ∈ t.validPaths) (hab : a.id = b.id) : a = b :=
  List.inj_on_of_nodup_map h.id_unique ha hb hab

theorem queryPathInfo_eq_some {path : Bytes} :
    t.queryPathInfo path = some row ↔ row ∈ t.validPaths ∧ row.path = path := by
  constructor
  · intro hfind
    exact ⟨List.mem_of_find?_eq_some hfind, by simpa using List.find?_some hfind⟩
  · rintro ⟨hmem, rfl⟩
    rcases hfind : t.queryPathInfo row.path with - | other
    · exact absurd (List.find?_eq_none.mp hfind row hmem) (by simp)
    · have hpath : other.path = row.path := by simpa using List.find?_some hfind
      rw [h.eq_of_path (List.mem_of_find?_eq_some hfind) hmem hpath]

theorem registered_iff : t.Registered cfg p ↔
    ∃ row, t.queryPathInfo (cfg.printStorePath p) = some row := by
  simp only [Registered, List.mem_map, h.queryPathInfo_eq_some]

theorem queryPathInfo_eq_none (hp : ¬ t.Registered cfg p) :
    t.queryPathInfo (cfg.printStorePath p) = none := by
  rcases hrow : t.queryPathInfo (cfg.printStorePath p) with - | row
  · rfl
  · exact absurd (h.registered_iff.mpr ⟨row, hrow⟩) hp

/-! ## Statements keep the tables sound -/

theorem insertValidPath {hash : Bytes} {registrationTime : Int} {narSize : Option Int}
    {ca : Option Bytes} {t' : Tables}
    (hins : Sqlite.insertValidPath (cfg.printStorePath p) hash registrationTime narSize ca t =
      .ok ((), t')) : t'.Sound cfg := by
  unfold Sqlite.insertValidPath at hins
  split at hins
  · cases hins
  · rename_i hnew
    cases hins
    constructor
    · simp only [List.map_append, List.map_singleton]
      exact List.nodup_append.mpr ⟨h.path_unique, List.nodup_singleton _, by
        rintro a ha b hb rfl
        exact hnew (List.mem_singleton.mp hb ▸ ha)⟩
    · simp only [List.map_append, List.map_singleton]
      exact List.nodup_append.mpr ⟨h.id_unique, List.nodup_singleton _, by
        rintro a ha b hb rfl
        exact t.newId_notMem (List.mem_singleton.mp hb ▸ ha)⟩
    · exact h.refs_unique
    · intro e he
      simp only [List.map_append, List.mem_append]
      exact (h.refsClosed e he).imp Or.inl Or.inl
    · intro row hrow
      rcases List.mem_append.mp hrow with hrow | hrow
      · exact h.printed row hrow
      · rw [List.mem_singleton.mp hrow]
        exact ⟨p, rfl⟩

theorem updateValidPath {narSize : Option Int} {hash : Bytes} {ca : Option Bytes} {path : Bytes}
    {t' : Tables} (hupd : Sqlite.updateValidPath narSize hash ca path t = .ok ((), t')) :
    t'.Sound cfg := by
  cases hupd
  have hpath : ∀ row : Row,
      (if row.path = path then { row with narSize, hash, ca } else row).path = row.path := by
    intro row
    split <;> rfl
  have hid : ∀ row : Row,
      (if row.path = path then { row with narSize, hash, ca } else row).id = row.id := by
    intro row
    split <;> rfl
  constructor
  · simpa [Function.comp_def, hpath] using h.path_unique
  · simpa [Function.comp_def, hid] using h.id_unique
  · exact h.refs_unique
  · simpa [RefsClosed, hid] using h.refsClosed
  · intro row hrow
    obtain ⟨old, hold, rfl⟩ := List.mem_map.mp hrow
    rw [hpath]
    exact h.printed old hold

theorem insertReference {referrer reference : Nat} {t' : Tables}
    (hins : Sqlite.insertReference referrer reference t = .ok ((), t')) : t'.Sound cfg := by
  unfold Sqlite.insertReference at hins
  split at hins
  · rename_i hends
    cases hins
    refine ⟨h.path_unique, h.id_unique, ?_, ?_, h.printed⟩
    · refine List.nodup_append.mpr ⟨h.refs_unique.filter _, List.nodup_singleton _, ?_⟩
      rintro a ha b hb rfl
      rw [List.mem_singleton.mp hb] at ha
      simpa using (List.mem_filter.mp ha).2
    · intro e he
      rcases List.mem_append.mp he with he | he
      · exact h.refsClosed e (List.mem_filter.mp he).1
      · rw [List.mem_singleton.mp he]
        exact hends
  · cases hins

theorem deleteValidPath {path : Bytes} {t' : Tables}
    (hdel : Sqlite.deleteValidPath path t = .ok ((), t')) : t'.Sound cfg := by
  unfold Sqlite.deleteValidPath at hdel
  split at hdel
  · cases hdel
    exact h
  · rename_i row hrow
    obtain ⟨hmem, hpath⟩ := h.queryPathInfo_eq_some.mp hrow
    dsimp only at hdel
    split at hdel
    · cases hdel
    · rename_i hrestrict
      cases hdel
      have hsub : (t.validPaths.filter (·.path ≠ path)).Sublist t.validPaths := List.filter_sublist
      refine ⟨h.path_unique.sublist (hsub.map _), h.id_unique.sublist (hsub.map _),
        (h.refs_unique.filter _).filter _, fun e he => ?_, fun r hr => h.printed r (hsub.subset hr)⟩
      obtain ⟨he, hreferrer⟩ := List.mem_filter.mp he
      have hreference : e.2 ≠ row.id := fun heq => hrestrict (List.mem_map.mpr ⟨e, he, heq⟩)
      -- a row that is not the deleted one is still there
      have hkept : ∀ n ∈ t.validPaths.map (·.id), n ≠ row.id →
          n ∈ (t.validPaths.filter (·.path ≠ path)).map (·.id) := by
        intro n hn hne
        obtain ⟨r, hr, rfl⟩ := List.mem_map.mp hn
        refine List.mem_map_of_mem (List.mem_filter.mpr ⟨hr, ?_⟩)
        have hrpath : r.path ≠ path := fun heq =>
          hne (congrArg _ (h.eq_of_path hr hmem (heq.trans hpath.symm)))
        simpa using hrpath
      have hends := h.refsClosed e (List.mem_filter.mp he).1
      exact ⟨hkept _ hends.1 (by simpa using hreferrer), hkept _ hends.2 hreference⟩

end Sound

end Tables

/-! ## The code and its readings -/

section Follows

variable (cfg : StoreDirConfig)

/-- Code of at most `n` statements that keeps the tables sound, and its reading. -/
abbrev Runs {α : Type} (n : Nat) (p : Action α) (spec : Reading α) : Prop :=
  Follows (fun t => t.Sound cfg) n p spec

theorem isValidPath_runs (path : StorePath) :
    Runs cfg 1 (isValidPath_ cfg path) (isValidPath_ cfg path) :=
  (Follows.query _).bind fun _ => Follows.pure _

theorem queryValidPathId_runs (path : StorePath) :
    Runs cfg 1 (queryValidPathId cfg path) (queryValidPathId cfg path) := by
  refine (Follows.query _).bind (k := 0) fun row => ?_
  cases row with
  | none => exact Follows.raise _
  | some row => exact Follows.pure _

theorem addValidPath_runs [Sha256] (now : Int) (info : ValidPathInfo) :
    Runs cfg 1 (addValidPath cfg now info) (addValidPath cfg now info) := by
  have hinsert : ∀ hash time size ca, Runs cfg 1
      (perform (insertValidPath (cfg.printStorePath info.path) hash time size ca))
      (perform (insertValidPath (cfg.printStorePath info.path) hash time size ca)) :=
    fun _ _ _ _ => Follows.perform fun _ _ _ ht h => ht.insertValidPath h
  unfold addValidPath
  dsimp only
  split
  · split
    · exact hinsert _ _ _ _
    · exact ((Follows.raise _).bind fun _ => hinsert _ _ _ _).mono (by omega)
    · exact ((Follows.raise _).bind fun _ => hinsert _ _ _ _).mono (by omega)
  · exact hinsert _ _ _ _

theorem updatePathInfo_runs (info : ValidPathInfo) :
    Runs cfg 1 (updatePathInfo cfg info) (updatePathInfo cfg info) :=
  Follows.perform fun _ _ _ ht h => ht.updateValidPath h

theorem addReferences_runs (info : ValidPathInfo) :
    Runs cfg (1 + info.references.length * 2) (addReferences cfg info) (addReferences cfg info) := by
  unfold addReferences
  split
  · refine (queryValidPathId_runs cfg info.path).bind fun referrer => Follows.forM fun j _ => ?_
    exact (queryValidPathId_runs cfg j).bind fun reference =>
      Follows.perform fun _ _ _ ht h => ht.insertReference h
  · exact (Follows.pure _).mono (Nat.zero_le _)

theorem registerTransaction_runs [Sha256] (now : Int) (info : ValidPathInfo) :
    Runs cfg (3 + info.references.length * 2) (registerTransaction cfg now info)
      (registerTransaction cfg now info) := by
  have hrefs := addReferences_runs cfg info
  refine ((isValidPath_runs cfg info.path).bind (k := 2 + info.references.length * 2)
    fun valid => ?_).mono (by omega)
  cases valid with
  | true => exact ((updatePathInfo_runs cfg info).bind fun _ => hrefs).mono (by omega)
  | false => exact ((addValidPath_runs cfg now info).bind fun _ => hrefs).mono (by omega)

theorem insertPaths_runs (paths : List Bytes) (acc : List StorePath) :
    Runs cfg 0 (insertPaths cfg paths acc) (insertPaths cfg paths acc) := by
  induction paths generalizing acc with
  | nil => exact Follows.pure _
  | cons path rest ih =>
      unfold insertPaths
      rcases cfg.parseStorePath path with e | p
      · exact Follows.raise _
      · exact ih _

theorem queryReferrers_runs (path : StorePath) :
    Runs cfg 1 (queryReferrers cfg path) (queryReferrers cfg path) :=
  (Follows.query _).bind fun _ => insertPaths_runs cfg _ _

theorem invalidatePath_runs (path : StorePath) :
    Runs cfg 1 (invalidatePath cfg path) (invalidatePath cfg path) :=
  Follows.perform fun _ _ _ ht h => ht.deleteValidPath h

theorem invalidateTransaction_runs (path : StorePath) :
    Runs cfg 3 (invalidateTransaction cfg path) (invalidateTransaction cfg path) := by
  refine (isValidPath_runs cfg path).bind (k := 2) fun valid => ?_
  cases valid with
  | false => exact (Follows.pure _).mono (by omega)
  | true =>
      refine (queryReferrers_runs cfg path).bind (k := 1) fun referrers => ?_
      dsimp only
      split
      · exact ((Follows.raise _).bind fun _ => invalidatePath_runs cfg path).mono (by omega)
      · exact invalidatePath_runs cfg path

end Follows

/-! ## Queries over sound tables -/

namespace Tables

variable {t : Tables} {cfg : StoreDirConfig} {p q : StorePath}

theorem mem_queryReferences {id : Nat} {path : Bytes} :
    path ∈ t.queryReferences id ↔ ∃ b ∈ t.validPaths, b.path = path ∧ (id, b.id) ∈ t.refs := by
  simp only [queryReferences, List.mem_flatMap, List.mem_filter, List.mem_map, decide_eq_true_eq]
  constructor
  · rintro ⟨⟨_, _⟩, ⟨he, rfl⟩, b, ⟨hb, rfl⟩, rfl⟩
    exact ⟨b, hb, rfl, he⟩
  · rintro ⟨b, hb, rfl, he⟩
    exact ⟨(id, b.id), ⟨he, rfl⟩, b, ⟨hb, rfl⟩, rfl⟩

theorem Sound.mem_queryReferrers (h : t.Sound cfg) {path path' : Bytes} :
    path ∈ t.queryReferrers path' ↔ ∃ a ∈ t.validPaths, ∃ b ∈ t.validPaths, a.path = path ∧
      b.path = path' ∧ (a.id, b.id) ∈ t.refs := by
  unfold queryReferrers
  rcases hrow : t.queryPathInfo path' with - | row
  · have hnone : ∀ b ∈ t.validPaths, b.path ≠ path' := by
      simpa [queryPathInfo] using hrow
    simp only [List.not_mem_nil, false_iff, not_exists, not_and]
    exact fun a _ b hb _ hpath => absurd hpath (hnone b hb)
  · obtain ⟨hmem, hpath⟩ := h.queryPathInfo_eq_some.mp hrow
    simp only [List.mem_flatMap, List.mem_filter, List.mem_map, decide_eq_true_eq]
    constructor
    · rintro ⟨⟨_, _⟩, ⟨he, rfl⟩, a, ⟨ha, rfl⟩, rfl⟩
      exact ⟨a, ha, row, hmem, rfl, hpath, he⟩
    · rintro ⟨a, ha, b, hb, rfl, hbpath, he⟩
      obtain rfl := h.eq_of_path hb hmem (hbpath.trans hpath.symm)
      exact ⟨(a.id, b.id), ⟨he, rfl⟩, a, ⟨ha, rfl⟩, rfl⟩

theorem Sound.refers_iff (h : t.Sound cfg) :
    t.Refers cfg q p ↔ cfg.printStorePath q ∈ t.queryReferrers (cfg.printStorePath p) := by
  rw [h.mem_queryReferrers, Refers]

end Tables

section Readings

variable {t t' : Tables} {cfg : StoreDirConfig} {path : StorePath}

/-- Parsing paths that the store has printed. -/
theorem insertPaths_printed (t : Tables) (cfg : StoreDirConfig) (paths : List Bytes)
    (hprinted : ∀ path ∈ paths, ∃ p, path = cfg.printStorePath p) (acc : List StorePath) :
    ∃ res, (insertPaths cfg paths acc : Reading _) t = .ok (res, t) ∧
      (∀ q, q ∈ res ↔ cfg.printStorePath q ∈ paths ∨ q ∈ acc) ∧ (acc.Nodup → res.Nodup) := by
  induction paths generalizing acc with
  | nil => exact ⟨acc, rfl, by simp, id⟩
  | cons path rest ih =>
      obtain ⟨p, rfl⟩ := hprinted path (by simp)
      obtain ⟨res, hres, hmem, hnodup⟩ :=
        ih (fun path hpath => hprinted path (List.mem_cons_of_mem _ hpath)) (insertStorePath p acc)
      refine ⟨res, ?_, fun q => ?_, fun hacc => hnodup (nodup_insertStorePath hacc)⟩
      · rw [insertPaths, cfg.parseStorePath_printStorePath p]
        exact hres
      · rw [hmem, mem_insertStorePath, List.mem_cons, cfg.printStorePath_injective.eq_iff]
        tauto

theorem isValidPath_reading (path : StorePath) : (isValidPath_ cfg path : Reading _) t =
    .ok ((t.queryPathInfo (cfg.printStorePath path)).isSome, t) := rfl

theorem queryReferrers_reading (h : t.Sound cfg) (path : StorePath) :
    ∃ referrers, (queryReferrers cfg path : Reading _) t = .ok (referrers, t) ∧
      ∀ q, q ∈ referrers ↔ t.Refers cfg q path := by
  obtain ⟨referrers, hres, hmem, -⟩ := insertPaths_printed t cfg
    (t.queryReferrers (cfg.printStorePath path)) (fun p hp => by
      obtain ⟨a, ha, -, -, rfl, -⟩ := h.mem_queryReferrers.mp hp
      exact h.printed a ha) []
  refine ⟨referrers, ?_, fun q => ?_⟩
  · exact (reading_bind_ok rfl).trans hres
  · rw [hmem, h.refers_iff]
    simp

end Readings

/-! ## `invalidatePathChecked` -/

namespace Tables

variable {t : Tables} {cfg : StoreDirConfig} {p : StorePath} {row : Row}

/-- The tables without a row, and without the rows of `Refs` that go from it. -/
def without (t : Tables) (row : Row) : Tables :=
  { t with
    validPaths := t.validPaths.filter (· ≠ row)
    refs := t.refs.filter (·.1 ≠ row.id) }

/-- A path that is not in use is referred to by itself only. -/
theorem Sound.not_inUse_iff (h : t.Sound cfg) (hrow : row ∈ t.validPaths)
    (hpath : row.path = cfg.printStorePath p) :
    ¬ t.InUse cfg p ↔ ∀ e ∈ t.refs, e.2 = row.id → e.1 = row.id := by
  constructor
  · intro hfree e he hreference
    obtain ⟨a, ha, haid⟩ := List.mem_map.mp (h.refsClosed e he).1
    obtain ⟨q, hq⟩ := h.printed a ha
    have hrefers : t.Refers cfg q p := by
      refine ⟨a, ha, row, hrow, hq, hpath, ?_⟩
      rw [haid, ← hreference]
      exact he
    have hqp : q = p := by
      by_contra hne
      exact hfree ⟨q, hne, hrefers⟩
    rw [← haid, h.eq_of_path ha hrow (by rw [hq, hpath, hqp])]
  · rintro hself ⟨q, hne, a, ha, b, hb, hapath, hbpath, he⟩
    obtain rfl := h.eq_of_path hb hrow (hbpath.trans hpath.symm)
    obtain rfl := h.eq_of_id ha hb (hself _ he rfl)
    exact hne (cfg.printStorePath_injective (hapath.symm.trans hpath))

theorem Sound.deleteValidPath_eq (h : t.Sound cfg) (hrow : row ∈ t.validPaths)
    (hpath : row.path = cfg.printStorePath p) (hfree : ¬ t.InUse cfg p) :
    Sqlite.deleteValidPath (cfg.printStorePath p) t = .ok ((), t.without row) := by
  have hself := (h.not_inUse_iff hrow hpath).mp hfree
  have hfind : t.queryPathInfo (cfg.printStorePath p) = some row :=
    h.queryPathInfo_eq_some.mpr ⟨hrow, hpath⟩
  have hrestrict : row.id ∉ (t.refs.filter (· ≠ (row.id, row.id))).map (·.2) := by
    intro hmem
    obtain ⟨⟨a, b⟩, he, hb⟩ := List.mem_map.mp hmem
    obtain ⟨he, hne⟩ := List.mem_filter.mp he
    obtain rfl : b = row.id := hb
    have ha : a = row.id := hself _ he rfl
    simp [ha] at hne
  have hrows : t.validPaths.filter (·.path ≠ cfg.printStorePath p) =
      t.validPaths.filter (· ≠ row) := by
    refine List.filter_congr fun r hr => ?_
    have hiff : r.path = cfg.printStorePath p ↔ r = row := by
      constructor
      · exact fun hrpath => h.eq_of_path hr hrow (hrpath.trans hpath.symm)
      · rintro rfl
        exact hpath
    simp [hiff]
  have hrefs : (t.refs.filter (· ≠ (row.id, row.id))).filter (·.1 ≠ row.id) =
      t.refs.filter (·.1 ≠ row.id) := by
    rw [List.filter_filter]
    refine List.filter_congr fun e _ => ?_
    rcases e with ⟨a, b⟩
    by_cases ha : a = row.id <;> simp [ha]
  simp only [Sqlite.deleteValidPath, hfind]
  rw [if_neg hrestrict, hrows, hrefs]
  rfl

end Tables

section Invalidate

variable {t : Tables} {cfg : StoreDirConfig} {path : StorePath} {row : Row}

theorem invalidateTransaction_of_not_registered (h : t.Sound cfg) (hpath : ¬ t.Registered cfg path) :
    (invalidateTransaction cfg path : Reading Unit) t = .ok ((), t) := by
  refine (reading_bind_ok (isValidPath_reading path)).trans ?_
  rw [h.queryPathInfo_eq_none hpath]
  rfl

theorem invalidateTransaction_of_inUse (h : t.Sound cfg) (hused : t.InUse cfg path) :
    ∃ e, (invalidateTransaction cfg path : Reading Unit) t = .error e ∧ e.cls = .pathInUse := by
  obtain ⟨q, hne, hrefers⟩ := hused
  obtain ⟨-, -, b, hb, -, hbpath, -⟩ := id hrefers
  have hfind : t.queryPathInfo (cfg.printStorePath path) = some b :=
    h.queryPathInfo_eq_some.mpr ⟨hb, hbpath⟩
  obtain ⟨referrers, hres, hmem⟩ := queryReferrers_reading h path
  have hfilter : referrers.filter (· ≠ path) ≠ [] := by
    have hq : q ∈ referrers.filter (· ≠ path) :=
      List.mem_filter.mpr ⟨(hmem q).mpr hrefers, by simpa using hne⟩
    exact List.ne_nil_of_mem hq
  refine ⟨pathInUse cfg path (referrers.filter (· ≠ path)), ?_, rfl⟩
  refine (reading_bind_ok (isValidPath_reading path)).trans ?_
  rw [hfind]
  refine (reading_bind_ok hres).trans ?_
  dsimp only
  rw [if_pos hfilter]
  exact reading_bind_error rfl

theorem invalidateTransaction_of_not_inUse (h : t.Sound cfg) (hrow : row ∈ t.validPaths)
    (hpath : row.path = cfg.printStorePath path) (hfree : ¬ t.InUse cfg path) :
    (invalidateTransaction cfg path : Reading Unit) t = .ok ((), t.without row) := by
  have hfind : t.queryPathInfo (cfg.printStorePath path) = some row :=
    h.queryPathInfo_eq_some.mpr ⟨hrow, hpath⟩
  obtain ⟨referrers, hres, hmem⟩ := queryReferrers_reading h path
  have hfilter : ¬ referrers.filter (· ≠ path) ≠ [] := by
    rw [not_not, List.filter_eq_nil_iff]
    intro q hq
    by_contra hne
    exact hfree ⟨q, by simpa using hne, (hmem q).mp hq⟩
  refine (reading_bind_ok (isValidPath_reading path)).trans ?_
  rw [hfind]
  refine (reading_bind_ok hres).trans ?_
  dsimp only
  rw [if_neg hfilter]
  exact h.deleteValidPath_eq hrow hpath hfree

/-- What `invalidatePathChecked` does to the tables when it succeeds. -/
structure Invalidates (cfg : StoreDirConfig) (path : StorePath) (t t' : Tables) : Prop where
  registered : ∀ row ∈ t.validPaths, row.path = cfg.printStorePath path → t' = t.without row
  not_registered : ¬ t.Registered cfg path → t' = t

theorem invalidateTransaction_eq_ok {t t' : Tables} {path : StorePath} (h : t.Sound cfg)
    (hrun : (invalidateTransaction cfg path : Reading Unit) t = .ok ((), t')) :
    Invalidates cfg path t t' := by
  constructor
  · intro row hrow hpath
    by_cases hused : t.InUse cfg path
    · obtain ⟨e, he, -⟩ := invalidateTransaction_of_inUse h hused
      rw [he] at hrun
      cases hrun
    · rw [invalidateTransaction_of_not_inUse h hrow hpath hused] at hrun
      cases hrun
      rfl
  · intro hpath
    rw [invalidateTransaction_of_not_registered h hpath] at hrun
    cases hrun
    rfl

end Invalidate

/-! ## `registerValidPath` -/

section Register

variable {t t' : Tables} {cfg : StoreDirConfig} {info : ValidPathInfo} {now : Int}

/-- The row of `info.path` says what `info` does; its id and its time are those of the row
before, if there was one. -/
structure RowWritten (cfg : StoreDirConfig) (now : Int) (info : ValidPathInfo) (t t' : Tables) :
    Prop where
  row : ∃ row ∈ t'.validPaths, row.path = cfg.printStorePath info.path ∧
    row.hash = info.narHash.base16 ∧ row.narSize = narSizeColumn info ∧ row.ca = caColumn info ∧
    (∀ old ∈ t.validPaths, old.path = row.path →
      row.id = old.id ∧ row.registrationTime = old.registrationTime) ∧
    (¬ t.Registered cfg info.path → row.registrationTime =
      if info.registrationTime = 0 then now else info.registrationTime)
  other : ∀ row : Row, row.path ≠ cfg.printStorePath info.path →
    (row ∈ t'.validPaths ↔ row ∈ t.validPaths)

/-- What `registerValidPath` does to the tables when it succeeds. -/
structure Registers (cfg : StoreDirConfig) (now : Int) (info : ValidPathInfo) (t t' : Tables) :
    Prop extends RowWritten cfg now info t t' where
  refs : ∀ e, e ∈ t'.refs ↔ e ∈ t.refs ∨ ∃ a ∈ t'.validPaths, ∃ b ∈ t'.validPaths,
    ∃ j ∈ info.references, a.path = cfg.printStorePath info.path ∧
      b.path = cfg.printStorePath j ∧ e = (a.id, b.id)

theorem updatePathInfo_written (h : t.Sound cfg) (hpath : t.Registered cfg info.path)
    (hrun : (updatePathInfo cfg info : Reading Unit) t = .ok ((), t')) :
    RowWritten cfg now info t t' ∧ t'.refs = t.refs := by
  obtain ⟨old, hold, holdpath⟩ := List.mem_map.mp hpath
  cases hrun
  refine ⟨⟨⟨{ old with
      hash := info.narHash.base16, narSize := narSizeColumn info, ca := caColumn info }, ?_, holdpath,
    rfl, rfl, rfl, fun r hr hrpath => ?_, fun hnew => absurd hpath hnew⟩, fun row hne => ?_⟩, rfl⟩
  · exact List.mem_map.mpr ⟨old, hold, if_pos holdpath⟩
  · obtain rfl := h.eq_of_path hr hold hrpath
    exact ⟨rfl, rfl⟩
  · simp only [List.mem_map]
    constructor
    · rintro ⟨r, hr, hrow⟩
      split at hrow
      · rename_i hrpath
        rw [← hrow] at hne
        exact absurd hrpath hne
      · rwa [← hrow]
    · exact fun hrow => ⟨row, hrow, if_neg hne⟩

theorem insertValidPath_written (hpath : ¬ t.Registered cfg info.path)
    (hrun : insertValidPath (cfg.printStorePath info.path) info.narHash.base16
      (if info.registrationTime = 0 then now else info.registrationTime)
      (narSizeColumn info) (caColumn info) t = .ok ((), t')) :
    RowWritten cfg now info t t' ∧ t'.refs = t.refs := by
  have hnew : cfg.printStorePath info.path ∉ t.validPaths.map (·.path) := hpath
  rw [insertValidPath, if_neg hnew] at hrun
  cases hrun
  refine ⟨⟨⟨_, List.mem_append_right _ (List.mem_singleton.mpr rfl), rfl, rfl, rfl, rfl,
    fun r hr hrpath => ?_, fun _ => rfl⟩, fun row hne => ?_⟩, rfl⟩
  · exact absurd (List.mem_map.mpr ⟨r, hr, hrpath⟩) hpath
  · simp only [List.mem_append, List.mem_singleton]
    constructor
    · rintro (hrow | rfl)
      · exact hrow
      · exact absurd rfl hne
    · exact Or.inl

theorem addValidPath_of_consistent [Sha256] (hca : info.CaConsistent cfg) :
    (addValidPath cfg now info : Reading Unit) t =
      insertValidPath (cfg.printStorePath info.path) info.narHash.base16
        (if info.registrationTime = 0 then now else info.registrationTime)
        (narSizeColumn info) (caColumn info) t := by
  obtain ⟨b, hb, hiff⟩ := info.isContentAddressed_eq cfg
  unfold addValidPath
  dsimp only
  split
  · rename_i hsome
    rw [hb, (hiff hsome).mpr hca]
    rfl
  · rfl

/-- A content address that is not the one of the path is refused. -/
theorem addValidPath_of_not_consistent [Sha256] (hca : ¬ info.CaConsistent cfg) :
    (addValidPath cfg now info : Reading Unit) t = .error (notContentAddressed cfg info.path) := by
  obtain ⟨b, hb, hiff⟩ := info.isContentAddressed_eq cfg
  have hsome : info.ca.isSome := by
    rw [Option.isSome_iff_ne_none]
    intro hnone
    exact hca fun hash hhash => by
      rw [hnone] at hhash
      cases hhash
  have hfalse : b = false := by
    by_contra hb
    exact hca ((hiff hsome).mp (by simpa using hb))
  unfold addValidPath
  dsimp only
  rw [if_pos hsome, hb, hfalse]
  exact reading_bind_error rfl

theorem queryValidPathId_eq_ok (h : t.Sound cfg) {p : StorePath} {r : Nat × Tables}
    (hrun : (queryValidPathId cfg p : Reading Nat) t = .ok r) :
    ∃ row ∈ t.validPaths, row.path = cfg.printStorePath p ∧ r = (row.id, t) := by
  obtain ⟨found, t₁, hq, hrest⟩ := reading_bind_eq_ok hrun
  cases hq
  dsimp only at hrest
  rcases hfind : t.queryPathInfo (cfg.printStorePath p) with - | row
  · rw [hfind] at hrest
    cases hrest
  · rw [hfind] at hrest
    cases hrest
    obtain ⟨hmem, hpath⟩ := h.queryPathInfo_eq_some.mp hfind
    exact ⟨row, hmem, hpath, rfl⟩

/-- The loop over the references, one row of `Refs` each. -/
theorem insertReferences_eq_ok (h : t.Sound cfg) {referrer : Nat} {references : List StorePath}
    (hrun : (references.forM fun j => (do
      let reference ← queryValidPathId cfg j
      perform (insertReference referrer reference) : Reading Unit)) t = .ok ((), t')) :
    t'.validPaths = t.validPaths ∧ ∀ e, e ∈ t'.refs ↔ e ∈ t.refs ∨
      ∃ b ∈ t.validPaths, ∃ j ∈ references, b.path = cfg.printStorePath j ∧ e = (referrer, b.id) := by
  induction references generalizing t with
  | nil =>
      cases hrun
      simp
  | cons j rest ih =>
      rw [List.forM_eq_forM, List.forM_cons] at hrun
      obtain ⟨_, t₁, hfirst, hrest⟩ := reading_bind_eq_ok hrun
      obtain ⟨reference, t₂, hid, hinsert⟩ := reading_bind_eq_ok hfirst
      obtain ⟨b, hb, hbpath, hrow⟩ := queryValidPathId_eq_ok h hid
      cases hrow
      have hsound := h.insertReference hinsert
      obtain ⟨hpaths, hrefs⟩ := ih hsound (by rw [List.forM_eq_forM]; exact hrest)
      have hone : t₁.validPaths = t.validPaths ∧
          ∀ e, e ∈ t₁.refs ↔ e ∈ t.refs ∨ e = (referrer, b.id) := by
        change insertReference referrer b.id t = _ at hinsert
        unfold insertReference at hinsert
        split at hinsert
        · cases hinsert
          refine ⟨rfl, fun e => ?_⟩
          by_cases he : e = (referrer, b.id) <;> simp [he]
        · cases hinsert
      refine ⟨hpaths.trans hone.1, fun e => ?_⟩
      rw [hrefs, hone.1, hone.2]
      constructor
      · rintro ((he | rfl) | ⟨b', hb', j', hj', hb'path, he⟩)
        · exact Or.inl he
        · exact Or.inr ⟨b, hb, j, List.mem_cons_self, hbpath, rfl⟩
        · exact Or.inr ⟨b', hb', j', List.mem_cons_of_mem _ hj', hb'path, he⟩
      · rintro (he | ⟨b', hb', j', hj', hb'path, he⟩)
        · exact Or.inl (Or.inl he)
        · rcases List.mem_cons.mp hj' with rfl | hj'
          · obtain rfl := h.eq_of_path hb' hb (hb'path.trans hbpath.symm)
            exact Or.inl (Or.inr he)
          · exact Or.inr ⟨b', hb', j', hj', hb'path, he⟩

theorem addReferences_eq_ok (h : t.Sound cfg)
    (hrun : (addReferences cfg info : Reading Unit) t = .ok ((), t')) :
    t'.validPaths = t.validPaths ∧ ∀ e, e ∈ t'.refs ↔ e ∈ t.refs ∨
      ∃ a ∈ t.validPaths, ∃ b ∈ t.validPaths, ∃ j ∈ info.references,
        a.path = cfg.printStorePath info.path ∧ b.path = cfg.printStorePath j ∧ e = (a.id, b.id) := by
  unfold addReferences at hrun
  split at hrun
  · obtain ⟨referrer, t₁, hid, hloop⟩ := reading_bind_eq_ok hrun
    obtain ⟨a, ha, hapath, hrow⟩ := queryValidPathId_eq_ok h hid
    cases hrow
    obtain ⟨hpaths, hrefs⟩ := insertReferences_eq_ok h hloop
    refine ⟨hpaths, fun e => (hrefs e).trans (or_congr_right ?_)⟩
    constructor
    · rintro ⟨b, hb, j, hj, hbpath, he⟩
      exact ⟨a, ha, b, hb, j, hj, hapath, hbpath, he⟩
    · rintro ⟨a', ha', b, hb, j, hj, ha'path, hbpath, he⟩
      obtain rfl := h.eq_of_path ha' ha (ha'path.trans hapath.symm)
      exact ⟨b, hb, j, hj, hbpath, he⟩
  · rename_i hnil
    rw [not_not] at hnil
    cases hrun
    simp [hnil]

theorem registerTransaction_eq_ok [Sha256] (h : t.Sound cfg)
    (hrun : (registerTransaction cfg now info : Reading Unit) t = .ok ((), t')) :
    Registers cfg now info t t' ∧ (¬ t.Registered cfg info.path → info.CaConsistent cfg) := by
  obtain ⟨valid, t₁, hvalid, hrest⟩ := reading_bind_eq_ok hrun
  rw [isValidPath_reading] at hvalid
  cases hvalid
  have hwrite : ∃ t₁, t₁.Sound cfg ∧ (RowWritten cfg now info t t₁ ∧ t₁.refs = t.refs) ∧
      (¬ t.Registered cfg info.path → info.CaConsistent cfg) ∧
      (addReferences cfg info : Reading Unit) t₁ = .ok ((), t') := by
    by_cases hpath : t.Registered cfg info.path
    · obtain ⟨row, hrow⟩ := h.registered_iff.mp hpath
      rw [hrow] at hrest
      obtain ⟨_, t₁, hupdate, hrefs⟩ := reading_bind_eq_ok hrest
      exact ⟨t₁, h.updateValidPath hupdate, updatePathInfo_written h hpath hupdate,
        fun hnew => absurd hpath hnew, hrefs⟩
    · rw [h.queryPathInfo_eq_none hpath] at hrest
      obtain ⟨_, t₁, hadd, hrefs⟩ := reading_bind_eq_ok hrest
      have hca : info.CaConsistent cfg := by
        by_contra hca
        rw [addValidPath_of_not_consistent hca] at hadd
        cases hadd
      have hinsert := (addValidPath_of_consistent hca).symm.trans hadd
      exact ⟨t₁, h.insertValidPath hinsert, insertValidPath_written hpath hinsert, fun _ => hca,
        hrefs⟩
  obtain ⟨t₁, hsound, ⟨hwritten, hsame⟩, hca, hrefs⟩ := hwrite
  obtain ⟨hpaths, hmem⟩ := addReferences_eq_ok hsound hrefs
  refine ⟨{ row := ?_, other := ?_, refs := ?_ }, hca⟩
  · rw [hpaths]
    exact hwritten.row
  · rw [hpaths]
    exact hwritten.other
  · rw [hpaths, ← hsame]
    exact hmem

theorem queryValidPathId_of_registered (h : t.Sound cfg) {p : StorePath}
    (hp : t.Registered cfg p) : ∃ row ∈ t.validPaths, row.path = cfg.printStorePath p ∧
      (queryValidPathId cfg p : Reading Nat) t = .ok (row.id, t) := by
  obtain ⟨row, hrow⟩ := h.registered_iff.mp hp
  obtain ⟨hmem, hpath⟩ := h.queryPathInfo_eq_some.mp hrow
  refine ⟨row, hmem, hpath, (reading_bind_ok rfl).trans ?_⟩
  dsimp only
  rw [hrow]
  rfl

theorem insertReferences_total (h : t.Sound cfg) {a : Row} (ha : a ∈ t.validPaths)
    (references : List StorePath) (hrefs : ∀ j ∈ references, t.Registered cfg j) :
    ∃ t', (references.forM fun j => (do
      let reference ← queryValidPathId cfg j
      perform (insertReference a.id reference) : Reading Unit)) t = .ok ((), t') := by
  induction references generalizing t with
  | nil => exact ⟨t, rfl⟩
  | cons j rest ih =>
      obtain ⟨b, hb, -, hid⟩ := queryValidPathId_of_registered h (hrefs j (by simp))
      have hends : a.id ∈ t.validPaths.map (·.id) ∧ b.id ∈ t.validPaths.map (·.id) :=
        ⟨List.mem_map_of_mem ha, List.mem_map_of_mem hb⟩
      have hinsert : insertReference a.id b.id t = .ok ((), { t with
          refs := t.refs.filter (· ≠ (a.id, b.id)) ++ [(a.id, b.id)] }) := if_pos hends
      obtain ⟨t', ht'⟩ := ih (h.insertReference hinsert) ha
        fun j hj => hrefs j (List.mem_cons_of_mem _ hj)
      refine ⟨t', ?_⟩
      rw [List.forM_eq_forM, List.forM_cons]
      refine (reading_bind_ok ((reading_bind_ok hid).trans hinsert)).trans ?_
      rw [← List.forM_eq_forM]
      exact ht'

/-- A new path is registered where its references are, or are the path itself, and its
content address, if it has one, is its own. -/
theorem registerTransaction_total [Sha256] (h : t.Sound cfg) (now : Int)
    (hnew : ¬ t.Registered cfg info.path)
    (hrefs : ∀ j ∈ info.references, t.Registered cfg j ∨ j = info.path)
    (hca : info.CaConsistent cfg) :
    ∃ t', (registerTransaction cfg now info : Reading Unit) t = .ok ((), t') := by
  have hnew' : cfg.printStorePath info.path ∉ t.validPaths.map (·.path) := hnew
  obtain ⟨t₁, hadd⟩ : ∃ t₁, (addValidPath cfg now info : Reading Unit) t = .ok ((), t₁) := by
    rw [addValidPath_of_consistent hca, insertValidPath, if_neg hnew']
    exact ⟨_, rfl⟩
  have hinsert := (addValidPath_of_consistent hca).symm.trans hadd
  have hsound := h.insertValidPath hinsert
  have hpaths : ∀ p, t₁.Registered cfg p ↔ t.Registered cfg p ∨ p = info.path := by
    intro p
    rw [insertValidPath, if_neg hnew'] at hinsert
    cases hinsert
    simp [Tables.Registered, cfg.printStorePath_injective.eq_iff]
  have hregister : ∀ r, (addReferences cfg info : Reading Unit) t₁ = r →
      (registerTransaction cfg now info : Reading Unit) t = r := by
    rintro r rfl
    refine (reading_bind_ok (isValidPath_reading info.path)).trans ?_
    rw [h.queryPathInfo_eq_none hnew]
    exact reading_bind_ok hadd
  obtain ⟨a, ha, -, hid⟩ := queryValidPathId_of_registered hsound
    ((hpaths info.path).mpr (Or.inr rfl))
  obtain ⟨t', ht'⟩ := insertReferences_total hsound ha info.references
    fun j hj => (hpaths j).mpr (hrefs j hj)
  by_cases hnil : info.references = []
  · exact ⟨t₁, hregister _ (by rw [addReferences, if_neg (not_not.mpr hnil)]; rfl)⟩
  · refine ⟨t', hregister _ ?_⟩
    rw [addReferences, if_pos hnil]
    exact (reading_bind_ok hid).trans ht'

/-- A content address that is not the one of the new path stops the transaction. -/
theorem registerTransaction_of_not_consistent [Sha256] (h : t.Sound cfg) (now : Int)
    (hnew : ¬ t.Registered cfg info.path) (hca : ¬ info.CaConsistent cfg) :
    (registerTransaction cfg now info : Reading Unit) t =
      .error (notContentAddressed cfg info.path) := by
  refine (reading_bind_ok (isValidPath_reading info.path)).trans ?_
  rw [h.queryPathInfo_eq_none hnew]
  exact reading_bind_error (addValidPath_of_not_consistent hca)

end Register

end Sqlite
end Store
end Archinix
