import Archinix.Store.SqliteRuns

/-!
# Reading back what was registered

`queryPathInfo` of a path that `registerValidPath` has just registered: every column goes
back through the parser of its own encoding.
-/

namespace Archinix
namespace Store
namespace Sqlite

open Foundation Util

/-- The sizes of the C++ types: a `Hash` holds 32 bytes, `narSize` 64 bits. -/
structure Fits (info : ValidPathInfo) : Prop where
  narHash : info.narHash.length = hashSizeSha256
  ca : ∀ hash, info.ca = some hash → hash.length = hashSizeSha256
  narSize : info.narSize < 2 ^ 64

/-- What is read back of a registered info. -/
structure SameInfo (info info' : ValidPathInfo) : Prop where
  path : info'.path = info.path
  narHash : info'.narHash = info.narHash
  narSize : info'.narSize = info.narSize
  ca : info'.ca = info.ca
  references : ∀ q, q ∈ info'.references ↔ q ∈ info.references
  references_nodup : info'.references.Nodup
  registrationTime : info.registrationTime ≠ 0 → info'.registrationTime = info.registrationTime

section Columns

variable {info : ValidPathInfo}

theorem narSize_column (h : Fits info) : toUInt64 ((narSizeColumn info).getD 0) = info.narSize := by
  unfold narSizeColumn
  split
  · exact toUInt64_toInt64 h.narSize
  · rename_i hzero
    rw [not_not] at hzero
    rw [hzero]
    rfl

theorem narHash_column (h : Fits info) (cfg : StoreDirConfig) :
    parseNarHash cfg info.path info.narHash.base16 = .ok info.narHash := by
  rw [parseNarHash, parseAnyPrefixed_base16 h.narHash]

/-- The `ca` column as `queryPathInfoInternal` reads it. -/
def readCa (column : Option Bytes) : Except Error (Option Hash) :=
  match column with
  | some s => ContentAddress.parseOpt s
  | none => .ok none

theorem ca_column (h : Fits info) : readCa (caColumn info) = .ok info.ca := by
  unfold caColumn readCa
  rcases hca : info.ca with - | hash
  · rfl
  · exact ContentAddress.parseOpt_render (h.ca hash hca)

end Columns

section Query

variable (cfg : StoreDirConfig)

theorem lift_queries {α : Type} (r : Except Error α) :
    Queries 0 (lift r : Action α) (lift r : Reading α) := by
  cases r with
  | ok a => exact Queries.pure a
  | error e => exact Queries.raise e

theorem insertPaths_queries (paths : List Bytes) (acc : List StorePath) :
    Queries 0 (insertPaths cfg paths acc : Action _) (insertPaths cfg paths acc : Reading _) := by
  induction paths generalizing acc with
  | nil => exact Queries.pure _
  | cons path rest ih =>
      unfold insertPaths
      rcases cfg.parseStorePath path with e | p
      · exact Queries.raise _
      · exact ih _

theorem queryPathInfoInternal_queries (path : StorePath) :
    Queries 2 (queryPathInfoInternal cfg path : Action _) (queryPathInfoInternal cfg path : Reading _) := by
  refine (Queries.query _).bind (k := 1) fun found => ?_
  cases found with
  | none => exact (Queries.pure _).mono (by omega)
  | some row =>
      have hreferences : ∀ narHash ca, Queries 1 (do
          let references ← insertPaths cfg (← query (·.queryReferences row.id)) []
          return some ⟨path, narHash, references, row.registrationTime,
            toUInt64 (row.narSize.getD 0), ca⟩ : Action (Option ValidPathInfo)) (do
          let references ← insertPaths cfg (← query (·.queryReferences row.id)) []
          return some ⟨path, narHash, references, row.registrationTime,
            toUInt64 (row.narSize.getD 0), ca⟩ : Reading (Option ValidPathInfo)) := fun _ _ =>
        (Queries.query _).bind (k := 0) fun _ => (insertPaths_queries cfg _ _).bind fun _ => Queries.pure _
      refine ((lift_queries _).bind (k := 1) fun narHash => ?_).mono (by omega)
      rcases hca : row.ca with - | s
      · exact ((Queries.pure _).bind fun ca => hreferences narHash ca).mono (by omega)
      · exact ((lift_queries _).bind fun ca => hreferences narHash ca).mono (by omega)

end Query

section ReadBack

variable {t t' : Tables} {cfg : StoreDirConfig} {info : ValidPathInfo} {now : Int}

/-- Querying a row whose columns parse. -/
theorem queryPathInfoInternal_reading (h : t.Sound cfg) {row : Row} {path : StorePath}
    (hrow : row ∈ t.validPaths) (hpath : row.path = cfg.printStorePath path) {narHash : Hash}
    (hhash : parseNarHash cfg path row.hash = .ok narHash) {ca : Option Hash}
    (hca : readCa row.ca = .ok ca) :
    ∃ references, (queryPathInfoInternal cfg path : Reading _) t = .ok (some
      ⟨path, narHash, references, row.registrationTime, toUInt64 (row.narSize.getD 0), ca⟩, t) ∧
      references.Nodup ∧ ∀ q, q ∈ references ↔ t.Refers cfg path q := by
  have hfind : t.queryPathInfo (cfg.printStorePath path) = some row :=
    h.queryPathInfo_eq_some.mpr ⟨hrow, hpath⟩
  obtain ⟨references, hres, hmem, hnodup⟩ := insertPaths_printed t cfg
    (t.queryReferences row.id) (fun p hp => by
      obtain ⟨b, hb, rfl, -⟩ := Tables.mem_queryReferences.mp hp
      exact h.printed b hb) []
  refine ⟨references, ?_, hnodup List.nodup_nil, fun q => ?_⟩
  · refine (reading_bind_ok rfl).trans ?_
    dsimp only
    rw [hfind]
    dsimp only
    rw [hhash]
    refine (reading_bind_ok rfl).trans ?_
    have hreferences : ∀ narHash ca, (do
        let references ← insertPaths cfg (← query (·.queryReferences row.id)) []
        return some ⟨path, narHash, references, row.registrationTime,
          toUInt64 (row.narSize.getD 0), ca⟩ : Reading (Option ValidPathInfo)) t =
        .ok (some ⟨path, narHash, references, row.registrationTime,
          toUInt64 (row.narSize.getD 0), ca⟩, t) := by
      intro narHash ca
      exact (reading_bind_ok rfl).trans (reading_bind_ok hres)
    rcases hcol : row.ca with - | s
    · rw [hcol] at hca
      cases hca
      exact (reading_bind_ok rfl).trans (hreferences narHash none)
    · rw [hcol] at hca
      dsimp only
      rw [show ContentAddress.parseOpt s = .ok ca from hca]
      exact (reading_bind_ok rfl).trans (hreferences narHash ca)
  · rw [hmem, Tables.mem_queryReferences, Tables.Refers]
    simp only [List.not_mem_nil, or_false]
    constructor
    · rintro ⟨b, hb, hbpath, he⟩
      exact ⟨row, hrow, b, hb, hpath, hbpath, he⟩
    · rintro ⟨a, ha, b, hb, hapath, hbpath, he⟩
      obtain rfl := h.eq_of_path ha hrow (hapath.trans hpath.symm)
      exact ⟨b, hb, hbpath, he⟩

/-- A new path refers to its references and nothing else. -/
theorem Registers.refers_iff (h : t.Sound cfg) (h' : t'.Sound cfg)
    (hreg : Registers cfg now info t t') (hnew : ¬ t.Registered cfg info.path)
    (hrefs : ∀ j ∈ info.references, t.Registered cfg j ∨ j = info.path) (q : StorePath) :
    t'.Refers cfg info.path q ↔ q ∈ info.references := by
  obtain ⟨row, hrow, hpath, -⟩ := hreg.row
  constructor
  · rintro ⟨a, ha, b, hb, hapath, hbpath, he⟩
    rcases (hreg.refs _).mp he with hold | ⟨a', ha', b', hb', j, hj, -, hb'path, heq⟩
    · -- the old rows of `Refs` go from registered paths
      obtain ⟨r, hr, hrid⟩ := List.mem_map.mp (h.refsClosed _ hold).1
      have hrpath : r.path ≠ cfg.printStorePath info.path := fun heq =>
        hnew (List.mem_map.mpr ⟨r, hr, heq⟩)
      obtain rfl := h'.eq_of_id ((hreg.other r hrpath).mpr hr) ha hrid
      exact absurd hapath hrpath
    · obtain rfl := h'.eq_of_id hb hb' (Prod.ext_iff.mp heq).2
      rwa [cfg.printStorePath_injective (hbpath.symm.trans hb'path)]
  · intro hq
    have hregistered : t'.Registered cfg q := by
      by_cases hself : q = info.path
      · rw [hself]
        exact List.mem_map.mpr ⟨row, hrow, hpath⟩
      · obtain ⟨b, hb, hbpath⟩ := List.mem_map.mp ((hrefs q hq).resolve_right hself)
        have hne : b.path ≠ cfg.printStorePath info.path := fun heq =>
          hself (cfg.printStorePath_injective (hbpath.symm.trans heq))
        exact List.mem_map.mpr ⟨b, (hreg.other b hne).mpr hb, hbpath⟩
    obtain ⟨b, hb, hbpath⟩ := List.mem_map.mp hregistered
    exact ⟨row, hrow, b, hb, hpath, hbpath,
      (hreg.refs _).mpr (Or.inr ⟨row, hrow, b, hb, q, hq, hpath, hbpath, rfl⟩)⟩

/-- Over the tables, what was registered is read back. -/
theorem queryPathInfoInternal_registered (h : t.Sound cfg) (h' : t'.Sound cfg) (hfits : Fits info)
    (hreg : Registers cfg now info t t') (hnew : ¬ t.Registered cfg info.path)
    (hrefs : ∀ j ∈ info.references, t.Registered cfg j ∨ j = info.path) :
    ∃ info', SameInfo info info' ∧
      (queryPathInfoInternal cfg info.path : Reading _) t' = .ok (some info', t') := by
  obtain ⟨row, hrow, hpath, hhash, hsize, hca, -, htime⟩ := hreg.row
  obtain ⟨references, hres, hnodup, hmem⟩ := queryPathInfoInternal_reading h' hrow hpath
    (hhash ▸ narHash_column hfits cfg) (hca ▸ ca_column hfits)
  refine ⟨⟨info.path, info.narHash, references, row.registrationTime,
    toUInt64 (row.narSize.getD 0), info.ca⟩, ⟨rfl, rfl, ?_, rfl, fun q => ?_, hnodup,
    fun hne => ?_⟩, hres⟩
  · rw [hsize]
    exact narSize_column hfits
  · exact (hmem q).trans (hreg.refers_iff h h' hnew hrefs q)
  · exact (htime hnew).trans (if_neg hne)

end ReadBack

section RegisterInfo

variable [Sha256] {cfg : StoreDirConfig} {c : Connection Tables} {info : ValidPathInfo}

/-- A new path whose content address is its own is registered, and its info read back. -/
theorem registerValidPath_reads_back (h : c.Holds fun t => t.Sound cfg) (hfits : Fits info)
    (hnew : ¬ c.tables.Registered cfg info.path)
    (hrefs : ∀ j ∈ info.references, c.tables.Registered cfg j ∨ j = info.path)
    (hca : info.CaConsistent cfg) (now : Int) (script : List Outcome) :
    (Undisturbed (6 + info.references.length * 2) c script →
      (registerValidPath cfg now info ⟨c, script⟩).1 = .ok ()) ∧
    ((registerValidPath cfg now info ⟨c, script⟩).1 = .ok () → ∃ info', SameInfo info info' ∧
      Yields 2 (queryPathInfo cfg info.path) (registerValidPath cfg now info ⟨c, script⟩).2.connection
        (· = some info')) := by
  have hruns := registerTransaction_runs cfg now info
  have hatomic : Atomically (registerValidPath cfg now info) (registerTransaction cfg now info) :=
    hruns.within.transaction.retry
  obtain ⟨t', hreading⟩ := registerTransaction_total h.1 now hnew hrefs hca
  refine ⟨fun hu => ?_, fun hok => ?_⟩
  · rcases hruns.within.transaction_ended hruns.takes (s := ⟨c, script⟩) hu.closed hu.smooth
      (by have := hu.enough; dsimp only; omega) with ⟨⟨⟩, hok⟩ | ⟨e, hthrown⟩
    · exact hok
    · have hspec := hatomic.thrown _ e hthrown
      rw [hreading] at hspec
      cases hspec
  · have hspec := hatomic.ok _ () hok
    have hclosed := hatomic.closed _ () hok
    have hsound : (registerValidPath cfg now info ⟨c, script⟩).2.connection.tables.Sound cfg :=
      (hruns.keeps.transaction.retry ⟨c, script⟩ h).1
    obtain ⟨info', hsame, hread⟩ := queryPathInfoInternal_registered h.1 hsound hfits
      (registerTransaction_eq_ok h.1 hspec).1 hnew hrefs
    exact ⟨info', hsame, .retry (queryPathInfoInternal_queries cfg info.path) hclosed hread rfl⟩

/-- A content address that is not the one of the new path is refused. -/
theorem registerValidPath_refuses (h : c.tables.Sound cfg)
    (hnew : ¬ c.tables.Registered cfg info.path) (hca : ¬ info.CaConsistent cfg) (now : Int)
    (script : List Outcome) :
    ∃ e, (registerValidPath cfg now info ⟨c, script⟩).1 = .error e ∧
      (registerValidPath cfg now info ⟨c, script⟩).2.connection.tables = c.tables ∧
      (Undisturbed (6 + info.references.length * 2) c script →
        e = .thrown (notContentAddressed cfg info.path)) := by
  have hruns := registerTransaction_runs cfg now info
  have hatomic : Atomically (registerValidPath cfg now info) (registerTransaction cfg now info) :=
    hruns.within.transaction.retry
  have hreading := registerTransaction_of_not_consistent h now hnew hca
  have hnot : ∀ a, (registerValidPath cfg now info ⟨c, script⟩).1 ≠ .ok a := by
    intro a hok
    have hspec := hatomic.ok _ a hok
    rw [hreading] at hspec
    cases hspec
  rcases hres : (registerValidPath cfg now info ⟨c, script⟩).1 with e | a
  · refine ⟨e, rfl, hatomic.error _ e hres, fun hu => ?_⟩
    rcases hruns.within.transaction_ended hruns.takes (s := ⟨c, script⟩) hu.closed hu.smooth
      (by have := hu.enough; dsimp only; omega) with ⟨a, hok⟩ | ⟨e', hthrown⟩
    · exact absurd hok (hnot a)
    · have hspec := hatomic.thrown _ e' hthrown
      rw [hreading] at hspec
      cases hspec
      exact Except.error.inj (hres.symm.trans hthrown)
  · exact absurd hres (hnot a)

end RegisterInfo

namespace Example

/-- The path whose content address is the null hash. -/
def addressed : StorePath := ⟨str "92paa65qkc29igr71imirdji37hx596y-c", by decide, by decide⟩

def misaddressed : StorePath := ⟨str "00000000000000000000000000000002-c", by decide, by decide⟩

/-- The largest size, a reference to a registered path and one to itself. -/
def addressedInfo (path : StorePath) : ValidPathInfo :=
  ⟨path, nullHash, [used, path], 7, 2 ^ 64 - 1, some nullHash⟩

theorem fits (path : StorePath) : Fits (addressedInfo path) :=
  ⟨rfl, fun hash h => by cases h; rfl, by simp [addressedInfo]⟩

theorem makeContentAddressedPath_c : letI := sha256
    (cfg.makeContentAddressedPath (str "c") nullHash).map (·.baseName) = .ok addressed.baseName := by
  decide +kernel

theorem caConsistent_iff (path : StorePath) (hname : path.name = str "c") : letI := sha256
    (addressedInfo path).CaConsistent cfg ↔ path = addressed := by
  let _ := sha256
  have hmake := makeContentAddressedPath_c
  rcases hres : cfg.makeContentAddressedPath (str "c") nullHash with e | p
  · rw [hres] at hmake
    cases hmake
  · rw [hres] at hmake
    have hp : p = addressed := StorePath.ext (Except.ok.inj hmake)
    constructor
    · intro h
      have hpath := h nullHash rfl
      rw [show (addressedInfo path).path.name = str "c" from hname, hres, hp] at hpath
      exact (Except.ok.inj hpath).symm
    · rintro rfl hash hhash
      cases hhash
      rw [show (addressedInfo addressed).path.name = str "c" from hname, hres, hp]
      rfl

end Example

end Sqlite
end Store
end Archinix
