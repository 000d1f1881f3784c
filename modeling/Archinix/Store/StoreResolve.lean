import Archinix.Foundation.LexPrefix
import Archinix.Store.SqliteInfo

/-!
# Resolving an id

`queryPathsByHashPrefix`, and the program `store-resolve` that finds the base name of a
store path from a prefix of its hash part, from its name, or from the base name itself.
-/

namespace Archinix
namespace Store
namespace Sqlite

open Foundation Util

/-! ## The program -/

/-- How `store-resolve` ends, once it has a store and a token. -/
inductive Exit where
  /-- The base name is printed. -/
  | resolved (baseName : Bytes)
  | ambiguousId (baseNames : List Bytes)
  | ambiguousName (baseNames : List Bytes)
  | unmatched
  /-- An exception. -/
  | error
  deriving DecidableEq

namespace Exit

/-- The exit code. -/
def code : Exit → Nat
  | resolved _ => 0
  | error => 1
  | unmatched => 2
  | ambiguousId _ => 3
  | ambiguousName _ => 3

end Exit

section Program

variable (cfg : StoreDirConfig)

/-- 3. The bare name. -/
def resolveName (token : Bytes) : Action Exit := do
  let paths ← queryAllValidPaths cfg
  match (paths.filter (·.name = token)).map (·.baseName) with
  | [] => return .unmatched
  | [baseName] => return .resolved baseName
  | baseNames => return .ambiguousName baseNames

/-- 2. The prefix of a hash part. -/
def resolveId (token : Bytes) : Action Exit :=
  if token.length ≤ HashLen then do
    match ← queryPathsByHashPrefix cfg token with
    | [] => resolveName cfg token
    | [hit] => return .resolved hit.baseName
    | hits => return .ambiguousId (hits.map (·.baseName))
  else resolveName cfg token

/-- 1. A full base name, or else one of the other forms. -/
def resolve (token : Bytes) : Action Exit :=
  match Constructed.ofString token with
  | .ok exact => do
      if ← isValidPath cfg exact then return .resolved exact.to_string
      else resolveId cfg token
  -- `BadStorePath`
  | .error _ => resolveId cfg token

/-- `main` with an open store; `none` while it runs. -/
def storeResolve (token : Bytes) (s : Session Tables) : Option Exit × Session Tables :=
  match resolve cfg token s with
  | (.ok exit, s') => (some exit, s')
  | (.error .pending, s') => (none, s')
  | (.error _, s') => (some .error, s')

end Program

/-! ## Hash prefixes -/

namespace Tables

variable {t : Tables} {cfg : StoreDirConfig}

/-- A registered path whose hash part starts with the token. -/
def Hit (t : Tables) (cfg : StoreDirConfig) (token : Bytes) (p : StorePath) : Prop :=
  t.Registered cfg p ∧ token <+: p.hashPart

/-- A registered path of the name. -/
def Named (t : Tables) (cfg : StoreDirConfig) (token : Bytes) (p : StorePath) : Prop :=
  t.Registered cfg p ∧ p.name = token

theorem mem_queryPathsFrom {first path : Bytes} :
    path ∈ t.queryPathsFrom first ↔ path ∈ t.validPaths.map (·.path) ∧ first ≤ path := by
  rw [queryPathsFrom, List.mem_mergeSort, List.mem_filter, decide_eq_true_eq]

theorem queryPathsFrom_sorted (first : Bytes) : (t.queryPathsFrom first).Pairwise (· ≤ ·) := by
  have hsorted : (t.queryPathsFrom first).Pairwise fun a b => decide (a ≤ b) :=
    List.pairwise_mergeSort (fun a b c hab hbc => by
      rw [decide_eq_true_eq] at *
      exact List.le_trans hab hbc) (fun a b => by
      rw [Bool.or_eq_true, decide_eq_true_eq, decide_eq_true_eq]
      exact List.le_total a b) _
  exact hsorted.imp fun h => by simpa using h

/-- The spelling of a path starts with that of a prefix of its hash part. -/
theorem hashPrefix_iff {token : Bytes} (hlen : token.length ≤ HashLen) (p : StorePath) :
    CanonPath.abs cfg.storeDir ++ str "/" ++ token <+: cfg.printStorePath p ↔
      token <+: p.hashPart := by
  rw [StoreDirConfig.printStorePath, List.prefix_append_right_inj, StorePath.hashPart,
    List.prefix_take_iff]
  exact (and_iff_left hlen).symm

end Tables

section Queries

variable {cfg : StoreDirConfig} {t : Tables} {c : Connection Tables} {token : Bytes}

theorem insertWhilePrefix_queries (start : Bytes) (paths : List Bytes) (acc : List StorePath) :
    Queries 0 (insertWhilePrefix cfg start paths acc : Action _)
      (insertWhilePrefix cfg start paths acc : Reading _) := by
  induction paths generalizing acc with
  | nil => exact Queries.pure _
  | cons path rest ih =>
      unfold insertWhilePrefix
      split
      · rcases cfg.parseStorePath path with e | p
        · exact Queries.raise _
        · exact ih _
      · exact Queries.pure _

/-- The loop stops where `takeWhile` does. -/
theorem insertWhilePrefix_reading (start : Bytes) (paths : List Bytes) (acc : List StorePath) :
    (insertWhilePrefix cfg start paths acc : Reading _) t =
      (insertPaths cfg (paths.takeWhile (start <+: ·)) acc : Reading _) t := by
  induction paths generalizing acc with
  | nil => rfl
  | cons path rest ih =>
      rw [insertWhilePrefix]
      split
      · rename_i hpath
        rw [List.takeWhile_cons_of_pos (by simpa using hpath), insertPaths]
        rcases cfg.parseStorePath path with e | p
        · rfl
        · exact ih _
      · rename_i hpath
        rw [List.takeWhile_cons_of_neg (by simpa using hpath)]
        rfl

theorem pathsByHashPrefix_queries (token : Bytes) :
    Queries 1 (pathsByHashPrefix cfg token : Action _) (pathsByHashPrefix cfg token : Reading _) :=
  (Queries.query _).bind fun _ => insertWhilePrefix_queries _ _ _

theorem pathsByHashPrefix_reading (h : t.Sound cfg) (hlen : token.length ≤ HashLen) :
    ∃ hits, (pathsByHashPrefix cfg token : Reading _) t = .ok (hits, t) ∧ hits.Nodup ∧
      ∀ p, p ∈ hits ↔ t.Hit cfg token p := by
  let start := CanonPath.abs cfg.storeDir ++ str "/" ++ token
  have hrange : (t.queryPathsFrom start).takeWhile (start <+: ·) =
      (t.queryPathsFrom start).filter (start <+: ·) :=
    takeWhile_eq_filter_of_sorted (fun path hpath => (Tables.mem_queryPathsFrom.mp hpath).2)
      (Tables.queryPathsFrom_sorted start)
  obtain ⟨hits, hres, hmem, hnodup⟩ := insertPaths_printed t cfg
    ((t.queryPathsFrom start).filter (start <+: ·)) (fun path hpath => by
      obtain ⟨row, hrow, rfl⟩ := List.mem_map.mp
        (Tables.mem_queryPathsFrom.mp (List.mem_filter.mp hpath).1).1
      exact h.printed row hrow) []
  refine ⟨hits, ?_, hnodup List.nodup_nil, fun p => ?_⟩
  · refine (reading_bind_ok rfl).trans ?_
    rw [insertWhilePrefix_reading, hrange]
    exact hres
  · rw [hmem, List.mem_filter, Tables.mem_queryPathsFrom, decide_eq_true_eq,
      Tables.hashPrefix_iff hlen, Tables.Hit]
    constructor
    · rintro (⟨⟨hp, -⟩, hprefix⟩ | hp)
      · exact ⟨hp, hprefix⟩
      · cases hp
    · rintro ⟨hp, hprefix⟩
      exact Or.inl ⟨⟨hp, ((Tables.hashPrefix_iff hlen p).mpr hprefix).le⟩, hprefix⟩

theorem queryPathsByHashPrefix_yields (h : c.tables.Sound cfg) (hclosed : c.working = none)
    (hne : token ≠ []) (hlen : token.length ≤ HashLen) :
    Yields 1 (queryPathsByHashPrefix cfg token) c fun hits =>
      hits.Nodup ∧ ∀ p, p ∈ hits ↔ c.tables.Hit cfg token p := by
  obtain ⟨hits, hres, hhits⟩ := pathsByHashPrefix_reading h hlen
  have hrange : ¬ (token = [] ∨ token.length > HashLen) := by
    simp only [hne, false_or, gt_iff_lt, not_lt]
    exact hlen
  rw [queryPathsByHashPrefix, if_neg hrange]
  exact .retry (pathsByHashPrefix_queries token) hclosed hres hhits

theorem queryAllValidPaths_yields (h : c.tables.Sound cfg) (hclosed : c.working = none) :
    Yields 1 (queryAllValidPaths cfg) c fun paths =>
      paths.Nodup ∧ ∀ p, p ∈ paths ↔ c.tables.Registered cfg p := by
  obtain ⟨paths, hres, hmem, hnodup⟩ := insertPaths_printed c.tables cfg
    c.tables.queryValidPaths (fun path hpath => by
      obtain ⟨row, hrow, rfl⟩ := List.mem_map.mp hpath
      exact h.printed row hrow) []
  have hqueries : Queries 1 (allValidPaths cfg : Action _) (allValidPaths cfg : Reading _) :=
    (Queries.query _).bind fun _ => insertPaths_queries cfg _ _
  refine .retry hqueries hclosed ((reading_bind_ok rfl).trans hres)
    ⟨hnodup List.nodup_nil, fun p => ?_⟩
  rw [hmem]
  simp [Tables.queryValidPaths, Tables.Registered]

end Queries

/-! ## What is reported -/

section Resolve

variable {cfg : StoreDirConfig} {t : Tables} {c : Connection Tables} {token : Bytes}

/-- What `store-resolve` reports of a token that is no base name. -/
structure Reports (cfg : StoreDirConfig) (t : Tables) (token : Bytes) (exit : Exit) : Prop where
  resolved : ∀ baseName, exit = .resolved baseName ↔
    (∃ p, p.baseName = baseName ∧ ∀ q, t.Hit cfg token q ↔ q = p) ∨
    (∀ q, ¬ t.Hit cfg token q) ∧ ∃ p, p.baseName = baseName ∧ ∀ q, t.Named cfg token q ↔ q = p
  ambiguous : (∃ baseNames, exit = .ambiguousId baseNames) ↔
    ∃ p q, p ≠ q ∧ t.Hit cfg token p ∧ t.Hit cfg token q
  unmatched : exit = .unmatched ↔ (∀ q, ¬ t.Hit cfg token q) ∧ ∀ q, ¬ t.Named cfg token q
  ambiguousName : (∃ baseNames, exit = .ambiguousName baseNames) ↔
    (∀ q, ¬ t.Hit cfg token q) ∧ ∃ p q, p ≠ q ∧ t.Named cfg token p ∧ t.Named cfg token q
  listed : ∀ baseNames, exit = .ambiguousId baseNames → ∀ baseName,
    baseName ∈ baseNames ↔ ∃ p, t.Hit cfg token p ∧ p.baseName = baseName

/-- A list without repetitions of the paths with a property. -/
theorem list_cases {P : StorePath → Prop} {l : List StorePath} (hnodup : l.Nodup)
    (hmem : ∀ p, p ∈ l ↔ P p) :
    (l = [] ∧ ∀ q, ¬ P q) ∨ (∃ p, l = [p] ∧ ∀ q, P q ↔ q = p) ∨
      ∃ p q rest, l = p :: q :: rest ∧ p ≠ q ∧ P p ∧ P q := by
  rcases l with - | ⟨p, - | ⟨q, rest⟩⟩
  · exact Or.inl ⟨rfl, fun q hq => by simpa using (hmem q).mpr hq⟩
  · exact Or.inr (Or.inl ⟨p, rfl, fun q => by rw [← hmem, List.mem_singleton]⟩)
  · refine Or.inr (Or.inr ⟨p, q, rest, rfl, ?_, (hmem p).mp (by simp), (hmem q).mp (by simp)⟩)
    rintro rfl
    simp at hnodup

/-- The name is tried when no hash part starts with the token. -/
theorem resolveName_yields (h : c.tables.Sound cfg) (hclosed : c.working = none)
    (hnone : ∀ q, ¬ c.tables.Hit cfg token q) :
    Yields 1 (resolveName cfg token) c (Reports cfg c.tables token) := by
  have hno : ¬ ∃ p q, p ≠ q ∧ c.tables.Hit cfg token p ∧ c.tables.Hit cfg token q :=
    fun ⟨p, _, _, hp, _⟩ => hnone p hp
  have hnot : ∀ b, ¬ ∃ p, p.baseName = b ∧ ∀ q, c.tables.Hit cfg token q ↔ q = p :=
    fun b ⟨p, _, hp⟩ => hnone p ((hp p).mpr rfl)
  refine (queryAllValidPaths_yields h hclosed).bind (k := 0) fun paths ⟨hnodup, hmem⟩ => ?_
  have hnamed : ∀ p, p ∈ paths.filter (·.name = token) ↔ c.tables.Named cfg token p := by
    intro p
    rw [List.mem_filter, hmem, decide_eq_true_eq, Tables.Named]
  rcases list_cases (hnodup.filter _) hnamed with ⟨hl, hzero⟩ | ⟨p, hl, hone⟩ |
    ⟨p, q, rest, hl, hne, hp, hq⟩ <;> rw [hl]
  · refine Yields.pure ⟨fun b => ?_, ?_, ?_, ?_, ?_⟩
    · simp only [reduceCtorEq, false_iff, not_or, not_and]
      exact ⟨hnot b, fun _ ⟨p, _, hp⟩ => hzero p ((hp p).mpr rfl)⟩
    · simpa using hno
    · simpa using ⟨hnone, hzero⟩
    · simp only [reduceCtorEq, exists_false, false_iff, not_and]
      exact fun _ ⟨p, _, _, hp, _⟩ => hzero p hp
    · simp
  · refine Yields.pure ⟨fun b => ?_, ?_, ?_, ?_, ?_⟩
    · constructor
      · intro heq
        cases heq
        exact Or.inr ⟨hnone, p, rfl, hone⟩
      · rintro (hhit | ⟨-, p', rfl, hp'⟩)
        · exact absurd hhit (hnot b)
        · rw [(hp' p).mp ((hone p).mpr rfl)]
    · simpa using hno
    · simp only [reduceCtorEq, false_iff, not_and]
      exact fun _ hzero => hzero p ((hone p).mpr rfl)
    · simp only [reduceCtorEq, exists_false, false_iff, not_and]
      exact fun _ ⟨p', q', hne', hp', hq'⟩ =>
        hne' (((hone p').mp hp').trans ((hone q').mp hq').symm)
    · simp
  · refine Yields.pure ⟨fun b => ?_, ?_, ?_, ?_, ?_⟩
    · simp only [reduceCtorEq, false_iff, not_or, not_and]
      exact ⟨hnot b, fun _ ⟨p', _, hp'⟩ => hne (((hp' p).mp hp).trans ((hp' q).mp hq).symm)⟩
    · simpa using hno
    · simp only [reduceCtorEq, false_iff, not_and]
      exact fun _ hzero => hzero p hp
    · simpa using ⟨hnone, p, q, hne, hp, hq⟩
    · simp

theorem resolveId_yields (h : c.tables.Sound cfg) (hclosed : c.working = none) (hne : token ≠ [])
    (hlen : token.length ≤ HashLen) :
    Yields 2 (resolveId cfg token) c (Reports cfg c.tables token) := by
  rw [resolveId, if_pos hlen]
  refine (queryPathsByHashPrefix_yields h hclosed hne hlen).bind (k := 1)
    fun hits ⟨hnodup, hmem⟩ => ?_
  rcases list_cases hnodup hmem with ⟨rfl, hzero⟩ | ⟨p, rfl, hone⟩ | ⟨p, q, rest, rfl, hpq, hp, hq⟩
  · exact resolveName_yields h hclosed hzero
  · refine (Yields.pure ⟨fun b => ?_, ?_, ?_, ?_, ?_⟩).mono (Nat.zero_le 1)
    · constructor
      · intro heq
        cases heq
        exact Or.inl ⟨p, rfl, hone⟩
      · rintro (⟨p', rfl, hp'⟩ | ⟨hzero, -⟩)
        · rw [(hp' p).mp ((hone p).mpr rfl)]
        · exact absurd ((hone p).mpr rfl) (hzero p)
    · simp only [reduceCtorEq, exists_false, false_iff]
      rintro ⟨p', q', hne', hp', hq'⟩
      exact hne' (((hone p').mp hp').trans ((hone q').mp hq').symm)
    · simp only [reduceCtorEq, false_iff, not_and]
      exact fun hzero => absurd ((hone p).mpr rfl) (hzero p)
    · simp only [reduceCtorEq, exists_false, false_iff, not_and]
      exact fun hzero => absurd ((hone p).mpr rfl) (hzero p)
    · simp
  · refine (Yields.pure ⟨fun b => ?_, ?_, ?_, ?_, ?_⟩).mono (Nat.zero_le 1)
    · simp only [reduceCtorEq, false_iff, not_or, not_and]
      exact ⟨fun ⟨p', _, hp'⟩ => hpq (((hp' p).mp hp).trans ((hp' q).mp hq).symm),
        fun hzero => absurd hp (hzero p)⟩
    · simpa using ⟨p, q, hpq, hp, hq⟩
    · simp only [reduceCtorEq, false_iff, not_and]
      exact fun hzero => absurd hp (hzero p)
    · simp only [reduceCtorEq, exists_false, false_iff, not_and]
      exact fun hzero => absurd hp (hzero p)
    · intro bs hbs b
      cases hbs
      rw [List.mem_map]
      simp only [hmem]

/-- A token as short as a hash part is no base name. -/
theorem ofString_short (hlen : token.length ≤ HashLen) : ∃ e, Constructed.ofString token = .error e := by
  rcases hres : Constructed.ofString token with e | p
  · exact ⟨e, rfl⟩
  · have hlong := (checkBaseName_eq_ok.mp p.valid).1
    rw [Constructed.ofString_eq_ok.mp hres] at hlong
    omega

theorem resolve_yields (h : c.tables.Sound cfg) (hclosed : c.working = none) (hne : token ≠ [])
    (hlen : token.length ≤ HashLen) :
    Yields 2 (resolve cfg token) c (Reports cfg c.tables token) := by
  obtain ⟨e, he⟩ := ofString_short hlen
  rw [resolve, he]
  exact resolveId_yields h hclosed hne hlen

theorem isValidPath_yields (h : c.tables.Sound cfg) (hclosed : c.working = none) (exact : Constructed) :
    Yields 1 (isValidPath cfg exact) c fun valid =>
      valid = true ↔ ∃ p, c.tables.Registered cfg p ∧ p.baseName = exact.baseName := by
  have hqueries : Queries 1 (do
      let row ← query (·.queryPathInfo (exact.print cfg))
      return row.isSome : Action Bool) (do
      let row ← query (·.queryPathInfo (exact.print cfg))
      return row.isSome : Reading Bool) := (Queries.query _).bind fun _ => Queries.pure _
  refine .retry hqueries hclosed (reading_bind_ok rfl) ?_
  rw [Option.isSome_iff_exists]
  constructor
  · rintro ⟨row, hrow⟩
    obtain ⟨hmem, hpath⟩ := h.queryPathInfo_eq_some.mp hrow
    obtain ⟨p, hp⟩ := h.printed row hmem
    refine ⟨p, List.mem_map.mpr ⟨row, hmem, hp⟩, ?_⟩
    rw [hp, StoreDirConfig.printStorePath, Constructed.print] at hpath
    exact List.append_cancel_left hpath
  · rintro ⟨p, hp, hbase⟩
    obtain ⟨row, hmem, hpath⟩ := List.mem_map.mp hp
    refine ⟨row, h.queryPathInfo_eq_some.mpr ⟨hmem, ?_⟩⟩
    rw [hpath, StoreDirConfig.printStorePath, Constructed.print, Constructed.to_string, hbase]

/-- What `store-resolve` reports of any token. -/
theorem resolve_yields_token (h : c.tables.Sound cfg) (hclosed : c.working = none)
    (hne : token ≠ []) :
    Yields 2 (resolve cfg token) c fun exit =>
      ((∃ p, c.tables.Registered cfg p ∧ p.baseName = token) → exit = .resolved token) ∧
      ((¬ ∃ p, c.tables.Registered cfg p ∧ p.baseName = token) →
        Reports cfg c.tables token exit) := by
  have hshort : ∀ p : StorePath, p.baseName = token → HashLen < token.length :=
    fun p hp => hp ▸ p.baseName_length
  by_cases hlen : token.length ≤ HashLen
  · have hno : ¬ ∃ p, c.tables.Registered cfg p ∧ p.baseName = token := by
      rintro ⟨p, -, hp⟩
      have hlong := hshort p hp
      omega
    exact (resolve_yields h hclosed hne hlen).weaken fun exit hexit =>
      ⟨fun hp => absurd hp hno, fun _ => hexit⟩
  · have hnohit : ∀ q, ¬ c.tables.Hit cfg token q := by
      rintro q ⟨-, hq⟩
      have hle := hq.length_le
      rw [StorePath.hashPart, List.length_take] at hle
      omega
    have hname : Yields 1 (resolveId cfg token) c (Reports cfg c.tables token) := by
      rw [resolveId, if_neg hlen]
      exact resolveName_yields h hclosed hnohit
    rw [resolve]
    rcases hres : Constructed.ofString token with e | exact
    · refine (hname.mono (Nat.le_succ 1)).weaken fun exit hexit => ⟨?_, fun _ => hexit⟩
      rintro ⟨p, -, rfl⟩
      obtain ⟨q, hq⟩ := Constructed.exists_ofString_iff.mpr p.valid
      rw [hq] at hres
      cases hres
    · obtain rfl := Constructed.ofString_eq_ok.mp hres
      refine (isValidPath_yields h hclosed exact).bind (k := 1) fun valid hvalid => ?_
      cases valid with
      | true =>
          exact ((Yields.pure rfl).mono (Nat.zero_le 1)).weaken fun exit hexit =>
            ⟨fun _ => hexit.symm, fun hno => absurd (hvalid.mp rfl) hno⟩
      | false =>
          refine hname.weaken fun exit hexit => ⟨fun hp => ?_, fun _ => hexit⟩
          have hfalse := hvalid.mpr hp
          cases hfalse

end Resolve

theorem Example.registered_cases {q : StorePath} (h : connection.tables.Registered cfg q) :
    q = used ∨ q = user := by
  have hpaths : cfg.printStorePath q = cfg.printStorePath used ∨
      cfg.printStorePath q = cfg.printStorePath user := by
    simpa [Tables.Registered, connection, row] using h
  rwa [cfg.printStorePath_injective.eq_iff, cfg.printStorePath_injective.eq_iff] at hpaths

end Sqlite
end Store
end Archinix
