import Archinix.Store.StorePath
import Archinix.Util.Hash

/-!
# The store database

The tables of `schema.sql` and the statements `LocalStore` runs on them.  A
`Database` carries what the schema enforces: paths and ids are unique, and both
ends of every `Refs` row are rows of `ValidPaths`.  A transaction is the function
from the tables before it to the tables after it, or the exception it throws,
which rolls it back.
-/

namespace Archinix
namespace Store

open Util

/-- A row of `ValidPaths`.  A text in the hash column that is no SHA-256 hash is
kept as a hash of another length. -/
structure ValidPathRow where
  id : Nat
  path : StorePath
  hash : Hash
  registrationTime : Int
  narSize : Option Nat
  /-- The hash of the content address, if the path claims to have one. -/
  ca : Option Hash
  deriving DecidableEq

/-- Information about a store object. -/
structure ValidPathInfo where
  path : StorePath
  narHash : Hash
  references : List StorePath
  registrationTime : Int
  /-- 0 if unknown. -/
  narSize : Nat
  /-- The hash of the content address. -/
  ca : Option Hash
  deriving DecidableEq

/-- What the `UpdatePathInfo` statement makes of a row. -/
def ValidPathInfo.update (info : ValidPathInfo) (row : ValidPathRow) : ValidPathRow :=
  if row.path = info.path then
    { row with
      narSize := if info.narSize ≠ 0 then some info.narSize else none
      hash := info.narHash
      ca := info.ca }
  else row

theorem ValidPathInfo.update_path (info : ValidPathInfo) (row : ValidPathRow) :
    (info.update row).path = row.path := by
  unfold update
  split <;> rfl

theorem ValidPathInfo.update_id (info : ValidPathInfo) (row : ValidPathRow) :
    (info.update row).id = row.id := by
  unfold update
  split <;> rfl

structure Database where
  validPaths : List ValidPathRow
  /-- `Refs`: referrer and reference, by id. -/
  refs : List (Nat × Nat)
  path_unique : (validPaths.map (·.path)).Nodup
  id_unique : (validPaths.map (·.id)).Nodup
  referrer_valid : ∀ e ∈ refs, ∃ row ∈ validPaths, row.id = e.1
  reference_valid : ∀ e ∈ refs, ∃ row ∈ validPaths, row.id = e.2

namespace Database

/-- The tables of a new store. -/
def empty : Database where
  validPaths := []
  refs := []
  path_unique := List.nodup_nil
  id_unique := List.nodup_nil
  referrer_valid := by simp
  reference_valid := by simp

variable (db : Database) (cfg : StoreDirConfig)

/-- The `QueryPathInfo` statement. -/
def queryPathInfo (path : StorePath) : Option ValidPathRow :=
  db.validPaths.find? (·.path = path)

def isValidPath_ (path : StorePath) : Bool := (db.queryPathInfo path).isSome

/-- The `QueryReferrers` statement. -/
def queryReferrers (path : StorePath) : List StorePath :=
  match db.queryPathInfo path with
  | some row => (db.validPaths.filter fun r => (r.id, row.id) ∈ db.refs).map (·.path)
  | none => []

/-- The `QueryValidPaths` statement. -/
def queryAllValidPaths : List StorePath := db.validPaths.map (·.path)

/-- The `QueryReferences` statement. -/
def queryReferences (row : ValidPathRow) : List StorePath :=
  (db.validPaths.filter fun r => (row.id, r.id) ∈ db.refs).map (·.path)

/-- `queryPathInfoInternal`. -/
def queryPathInfoInternal (path : StorePath) : Except Error (Option ValidPathInfo) :=
  match db.queryPathInfo path with
  | none => .ok none
  | some row =>
      if row.hash.length ≠ hashSizeSha256 then
        .error ⟨.error, "invalid-path entry for '%s': %s", [cfg.printStorePath path, row.hash]⟩
      else
        .ok (some
          { path := path
            narHash := row.hash
            references := db.queryReferences row
            registrationTime := row.registrationTime
            -- `NULL` reads as 0
            narSize := row.narSize.getD 0
            ca := row.ca })

/-- The `UpdatePathInfo` statement. -/
def updatePathInfo (info : ValidPathInfo) : Database where
  validPaths := db.validPaths.map info.update
  refs := db.refs
  path_unique := by
    rw [List.map_map]
    exact (List.map_congr_left fun row _ => info.update_path row) ▸ db.path_unique
  id_unique := by
    rw [List.map_map]
    exact (List.map_congr_left fun row _ => info.update_id row) ▸ db.id_unique
  referrer_valid e he := by
    obtain ⟨row, hrow, hid⟩ := db.referrer_valid e he
    exact ⟨_, List.mem_map_of_mem hrow, (info.update_id row).trans hid⟩
  reference_valid e he := by
    obtain ⟨row, hrow, hid⟩ := db.reference_valid e he
    exact ⟨_, List.mem_map_of_mem hrow, (info.update_id row).trans hid⟩

/-- An id no row has. -/
def nextId : Nat := (db.validPaths.map (·.id)).foldr max 0 + 1

/-- The tables with one more row of `ValidPaths`. -/
def withRow (row : ValidPathRow) (hpath : row.path ∉ db.validPaths.map (·.path))
    (hid : row.id ∉ db.validPaths.map (·.id)) : Database where
  validPaths := db.validPaths ++ [row]
  refs := db.refs
  path_unique := by
    rw [List.map_append, List.map_singleton]
    exact List.nodup_append.mpr ⟨db.path_unique, List.nodup_singleton _, by
      rintro a ha b hb rfl
      exact hpath (List.mem_singleton.mp hb ▸ ha)⟩
  id_unique := by
    rw [List.map_append, List.map_singleton]
    exact List.nodup_append.mpr ⟨db.id_unique, List.nodup_singleton _, by
      rintro a ha b hb rfl
      exact hid (List.mem_singleton.mp hb ▸ ha)⟩
  referrer_valid e he := by
    obtain ⟨r, hr, hid⟩ := db.referrer_valid e he
    exact ⟨r, List.mem_append_left _ hr, hid⟩
  reference_valid e he := by
    obtain ⟨r, hr, hid⟩ := db.reference_valid e he
    exact ⟨r, List.mem_append_left _ hr, hid⟩

theorem nextId_notMem : db.nextId ∉ db.validPaths.map (·.id) := by
  have hle : ∀ (l : List Nat), ∀ n ∈ l, n ≤ l.foldr max 0 := by
    intro l
    induction l with
    | nil => simp
    | cons m l ih =>
        intro n hn
        rcases List.mem_cons.mp hn with rfl | hn
        · exact le_max_left _ _
        · exact (ih n hn).trans (le_max_right _ _)
  intro hmem
  have hlast := hle _ _ hmem
  unfold nextId at hlast
  omega

/-- `addValidPath` at time `now`; `contentAddressed` is whether the path is the one of
its content address. -/
def addValidPath (now : Int) (info : ValidPathInfo) (contentAddressed : Bool) :
    Except Error Database :=
  if info.ca.isSome ∧ contentAddressed = false then
    .error ⟨.error, "cannot add path '%s' to the Nix store because it claims to be content-addressed but isn't",
      [cfg.printStorePath info.path]⟩
  else if h : info.path ∈ db.validPaths.map (·.path) then
    .error ⟨.sqliteError, "UNIQUE constraint failed: ValidPaths.path", []⟩
  else
    .ok (db.withRow
      { id := db.nextId
        path := info.path
        hash := info.narHash
        registrationTime := if info.registrationTime = 0 then now else info.registrationTime
        narSize := if info.narSize ≠ 0 then some info.narSize else none
        ca := info.ca } h db.nextId_notMem)

/-- The `AddReference` statement, with the ids of its paths. -/
def addReference (referrer reference : StorePath) : Except Error Database :=
  let invalid (path : StorePath) : Error := ⟨.invalidPath, "path '%s' is not valid", [cfg.printStorePath path]⟩
  match ha : db.queryPathInfo referrer, hb : db.queryPathInfo reference with
  | none, _ => .error (invalid referrer)
  | some _, none => .error (invalid reference)
  | some a, some b =>
      .ok
        { db with
          refs := if (a.id, b.id) ∈ db.refs then db.refs else db.refs ++ [(a.id, b.id)]
          referrer_valid := fun e he => by
            have he : e ∈ db.refs ∨ e = (a.id, b.id) := by
              split at he
              · exact Or.inl he
              · simpa using he
            rcases he with he | rfl
            · exact db.referrer_valid e he
            · exact ⟨a, List.mem_of_find?_eq_some ha, rfl⟩
          reference_valid := fun e he => by
            have he : e ∈ db.refs ∨ e = (a.id, b.id) := by
              split at he
              · exact Or.inl he
              · simpa using he
            rcases he with he | rfl
            · exact db.reference_valid e he
            · exact ⟨b, List.mem_of_find?_eq_some hb, rfl⟩ }

/-- The transaction of `registerValidPath`. -/
def registerValidPath (now : Int) (info : ValidPathInfo) (contentAddressed : Bool) :
    Except Error Database := do
  let db ←
    if db.isValidPath_ info.path then .ok (db.updatePathInfo info)
    else db.addValidPath cfg now info contentAddressed
  info.references.foldlM (fun db reference => db.addReference cfg info.path reference) db

/-- The rows left when a path goes, with the rows of `Refs` that name it. -/
def withoutPath (row : ValidPathRow) (hkept : ∀ e ∈ db.refs, e.2 = row.id → e.1 = row.id) :
    Database where
  validPaths := db.validPaths.filter (·.id ≠ row.id)
  refs := db.refs.filter (·.1 ≠ row.id)
  path_unique := (db.path_unique.sublist ((List.filter_sublist).map _))
  id_unique := (db.id_unique.sublist ((List.filter_sublist).map _))
  referrer_valid := by
    intro e he
    obtain ⟨he, hne⟩ := List.mem_filter.mp he
    obtain ⟨r, hr, hid⟩ := db.referrer_valid e he
    exact ⟨r, List.mem_filter.mpr ⟨hr, by simpa [hid] using hne⟩, hid⟩
  reference_valid := by
    intro e he
    obtain ⟨he, hne⟩ := List.mem_filter.mp he
    obtain ⟨r, hr, hid⟩ := db.reference_valid e he
    refine ⟨r, List.mem_filter.mpr ⟨hr, ?_⟩, hid⟩
    have hself := hkept e he
    simp only [ne_eq, decide_not, Bool.not_eq_eq_eq_not, Bool.not_true, decide_eq_false_iff_not]
      at hne ⊢
    rw [hid]
    exact fun h => hne (hself h)

/-- The `InvalidatePath` statement: self-references go by the trigger, rows the
path refers from by `on delete cascade`, and `on delete restrict` refuses when
another path still refers to it. -/
def invalidatePath (path : StorePath) : Except Error Database :=
  match db.queryPathInfo path with
  | none => .ok db
  | some row =>
      if hkept : ∀ e ∈ db.refs, e.2 = row.id → e.1 = row.id then .ok (db.withoutPath row hkept)
      else .error ⟨.sqliteError, "FOREIGN KEY constraint failed", []⟩

/-- The transaction of `invalidatePathChecked`. -/
def invalidatePathChecked (path : StorePath) : Except Error Database :=
  if db.isValidPath_ path then
    let referrers := (db.queryReferrers path).filter (· ≠ path)
    if referrers ≠ [] then
      .error ⟨.pathInUse, "cannot delete path '%s' because it is in use by %s",
        cfg.printStorePath path :: referrers.map cfg.printStorePath⟩
    else db.invalidatePath path
  else .ok db

/-! ## What the statements say -/

/-- The path has a row. -/
def Valid (path : StorePath) : Prop := db.isValidPath_ path = true

instance (path : StorePath) : Decidable (db.Valid path) :=
  inferInstanceAs (Decidable (_ = true))

/-- `Refs` has a row from one path to another. -/
def Refers (referrer reference : StorePath) : Prop :=
  ∃ a b, db.queryPathInfo referrer = some a ∧ db.queryPathInfo reference = some b ∧
    (a.id, b.id) ∈ db.refs

/-- A path that another one refers to: it cannot be invalidated. -/
def InUse (path : StorePath) : Prop := ∃ referrer, referrer ≠ path ∧ db.Refers referrer path

variable {db cfg} {path : StorePath} {row : ValidPathRow}

theorem valid_iff : db.Valid path ↔ ∃ row, db.queryPathInfo path = some row :=
  Option.isSome_iff_exists

theorem queryPathInfo_eq_some :
    db.queryPathInfo path = some row ↔ row ∈ db.validPaths ∧ row.path = path := by
  constructor
  · intro h
    exact ⟨List.mem_of_find?_eq_some h, by simpa using List.find?_some h⟩
  · rintro ⟨hmem, rfl⟩
    rcases hfind : db.queryPathInfo row.path with - | other
    · exact absurd (List.find?_eq_none.mp hfind row hmem) (by simp)
    · have hother := List.mem_of_find?_eq_some hfind
      have hpath : other.path = row.path := by simpa using List.find?_some hfind
      rw [List.inj_on_of_nodup_map db.path_unique hother hmem hpath]

theorem id_injective {a b : ValidPathRow} (ha : a ∈ db.validPaths) (hb : b ∈ db.validPaths)
    (h : a.id = b.id) : a = b :=
  List.inj_on_of_nodup_map db.id_unique ha hb h

theorem Refers.valid_left {p q : StorePath} (h : db.Refers p q) : db.Valid p := by
  obtain ⟨a, _, ha, -⟩ := h
  exact valid_iff.mpr ⟨a, ha⟩

theorem Refers.valid_right {p q : StorePath} (h : db.Refers p q) : db.Valid q := by
  obtain ⟨_, b, -, hb, -⟩ := h
  exact valid_iff.mpr ⟨b, hb⟩

theorem mem_queryAllValidPaths : path ∈ db.queryAllValidPaths ↔ db.Valid path := by
  simp only [queryAllValidPaths, List.mem_map, valid_iff, queryPathInfo_eq_some]

theorem mem_queryReferrers {referrer : StorePath} :
    referrer ∈ db.queryReferrers path ↔ db.Refers referrer path := by
  unfold queryReferrers Refers
  rcases hrow : db.queryPathInfo path with - | row
  · simp
  · simp only [List.mem_map, List.mem_filter, decide_eq_true_eq, Option.some.injEq]
    constructor
    · rintro ⟨r, ⟨hmem, href⟩, hpath⟩
      exact ⟨r, row, queryPathInfo_eq_some.mpr ⟨hmem, hpath⟩, rfl, href⟩
    · rintro ⟨a, b, ha, rfl, href⟩
      obtain ⟨hmem, hpath⟩ := queryPathInfo_eq_some.mp ha
      exact ⟨a, ⟨hmem, href⟩, hpath⟩

theorem inUse_iff : db.InUse path ↔ (db.queryReferrers path).filter (· ≠ path) ≠ [] := by
  rw [Ne, List.filter_eq_nil_iff]
  simp [InUse, mem_queryReferrers, and_comm]

theorem not_inUse_iff (hrow : db.queryPathInfo path = some row) :
    ¬ db.InUse path ↔ ∀ e ∈ db.refs, e.2 = row.id → e.1 = row.id := by
  obtain ⟨hmem, hpath⟩ := queryPathInfo_eq_some.mp hrow
  constructor
  · rintro hfree ⟨a, b⟩ he hb
    obtain rfl : b = row.id := hb
    by_contra ha
    obtain ⟨r, hr, hid⟩ := db.referrer_valid _ he
    refine hfree ⟨r.path, fun hsame => ha ?_, r, row, queryPathInfo_eq_some.mpr ⟨hr, rfl⟩, hrow, ?_⟩
    · rw [show a = r.id from hid.symm, List.inj_on_of_nodup_map db.path_unique hr hmem
        (hsame.trans hpath.symm)]
    · rw [show r.id = a from hid]
      exact he
  · rintro hkept ⟨referrer, hne, a, b, ha, hb, href⟩
    rw [hrow, Option.some.injEq] at hb
    subst hb
    obtain ⟨hamem, hapath⟩ := queryPathInfo_eq_some.mp ha
    have hrowa : a = row := id_injective hamem hmem (hkept _ href rfl)
    exact hne (by rw [← hapath, hrowa, hpath])

/-- The rows of other paths survive. -/
theorem queryPathInfo_withoutPath (hrow : db.queryPathInfo path = some row)
    (hkept : ∀ e ∈ db.refs, e.2 = row.id → e.1 = row.id) (other : StorePath) :
    (db.withoutPath row hkept).queryPathInfo other =
      if other = path then none else db.queryPathInfo other := by
  obtain ⟨hmem, hpath⟩ := queryPathInfo_eq_some.mp hrow
  ext r
  rw [queryPathInfo_eq_some]
  simp only [withoutPath, List.mem_filter, ne_eq, decide_not, Bool.not_eq_eq_eq_not, Bool.not_true,
    decide_eq_false_iff_not]
  split
  · rename_i hother
    simp only [reduceCtorEq, iff_false, not_and]
    rintro ⟨hr, hid⟩ hrpath
    exact hid (congrArg _ (List.inj_on_of_nodup_map db.path_unique hr hmem (by
      rw [hrpath, hother, hpath])))
  · rename_i hother
    rw [queryPathInfo_eq_some]
    constructor
    · rintro ⟨⟨hr, -⟩, hrpath⟩
      exact ⟨hr, hrpath⟩
    · rintro ⟨hr, hrpath⟩
      refine ⟨⟨hr, fun hid => hother ?_⟩, hrpath⟩
      rw [← hrpath, id_injective hr hmem hid, hpath]

/-- What `invalidatePathChecked` does to the tables when it succeeds: the path's
row and the rows of `Refs` that name it are gone. -/
structure Invalidated (db db' : Database) (path : StorePath) : Prop where
  row : ∀ other, db'.queryPathInfo other = if other = path then none else db.queryPathInfo other
  refers : ∀ p q, db'.Refers p q ↔ db.Refers p q ∧ p ≠ path ∧ q ≠ path

theorem Invalidated.refl_of_not_valid (h : ¬ db.Valid path) : Invalidated db db path := by
  constructor
  · intro other
    split
    · rename_i hother
      subst hother
      rcases hrow : db.queryPathInfo other with - | row
      · rfl
      · exact absurd (valid_iff.mpr ⟨row, hrow⟩) h
    · rfl
  · intro p q
    constructor
    · intro href
      refine ⟨href, ?_, ?_⟩
      · rintro rfl
        exact h href.valid_left
      · rintro rfl
        exact h href.valid_right
    · exact fun href => href.1

theorem withoutPath_invalidated (hrow : db.queryPathInfo path = some row)
    (hkept : ∀ e ∈ db.refs, e.2 = row.id → e.1 = row.id) :
    Invalidated db (db.withoutPath row hkept) path := by
  refine ⟨queryPathInfo_withoutPath hrow hkept, fun p q => ?_⟩
  obtain ⟨hmem, hpath⟩ := queryPathInfo_eq_some.mp hrow
  simp only [Refers, queryPathInfo_withoutPath hrow hkept]
  constructor
  · rintro ⟨a, b, ha, hb, href⟩
    split at ha
    · cases ha
    split at hb
    · cases hb
    rename_i hp hq
    exact ⟨⟨a, b, ha, hb, (List.mem_filter.mp href).1⟩, hp, hq⟩
  · rintro ⟨⟨a, b, ha, hb, href⟩, hp, hq⟩
    refine ⟨a, b, by rw [if_neg hp, ha], by rw [if_neg hq, hb], ?_⟩
    refine List.mem_filter.mpr ⟨href, ?_⟩
    obtain ⟨hamem, hapath⟩ := queryPathInfo_eq_some.mp ha
    simp only [ne_eq, decide_not, Bool.not_eq_eq_eq_not, Bool.not_true, decide_eq_false_iff_not]
    intro hid
    exact hp (by rw [← hapath, id_injective hamem hmem hid, hpath])

/-- `invalidatePathChecked` succeeds on the paths that are not in use, and throws
`PathInUse` on the others. -/
theorem invalidatePathChecked_spec (db : Database) (cfg : StoreDirConfig) (path : StorePath) :
    (¬ db.InUse path ∧ ∃ db', db.invalidatePathChecked cfg path = .ok db' ∧
      Invalidated db db' path) ∨
    (db.InUse path ∧ ∃ e, db.invalidatePathChecked cfg path = .error e ∧ e.cls = .pathInUse) := by
  unfold invalidatePathChecked
  by_cases hvalid : db.isValidPath_ path = true
  · simp only [hvalid, if_true]
    by_cases hinUse : db.InUse path
    · exact Or.inr ⟨hinUse, _, by rw [if_pos (inUse_iff.mp hinUse)], rfl⟩
    · obtain ⟨row, hrow⟩ := valid_iff.mp hvalid
      have hkept := (not_inUse_iff hrow).mp hinUse
      refine Or.inl ⟨hinUse, db.withoutPath row hkept, ?_, withoutPath_invalidated hrow hkept⟩
      rw [if_neg fun h => hinUse (inUse_iff.mpr h)]
      simp only [invalidatePath, hrow]
      rw [dif_pos hkept]
  · refine Or.inl ⟨fun ⟨_, _, href⟩ => hvalid href.valid_right, db, by simp [hvalid], ?_⟩
    exact Invalidated.refl_of_not_valid hvalid

theorem invalidated_of_ok {db' : Database} (h : db.invalidatePathChecked cfg path = .ok db') :
    Invalidated db db' path := by
  rcases db.invalidatePathChecked_spec cfg path with ⟨-, db'', hdb, hinvalidated⟩ | ⟨-, e, he, -⟩
  · obtain rfl := Except.ok.inj (h.symm.trans hdb)
    exact hinvalidated
  · rw [h] at he
    cases he

section WithRow

variable {new : ValidPathRow} {hpath : new.path ∉ db.validPaths.map (·.path)}
  {hid : new.id ∉ db.validPaths.map (·.id)}

theorem queryPathInfo_withRow (other : StorePath) : (db.withRow new hpath hid).queryPathInfo other =
    if other = new.path then some new else db.queryPathInfo other := by
  rw [queryPathInfo, withRow, List.find?_append]
  split
  · rename_i hself
    have hnone : db.validPaths.find? (fun r => decide (r.path = other)) = none := by
      rw [List.find?_eq_none]
      intro r hr hrpath
      exact hpath (List.mem_map.mpr ⟨r, hr, by simpa [hself] using hrpath⟩)
    rw [hnone]
    simp [hself]
  · rename_i hne
    simp [Ne.symm hne, queryPathInfo]

theorem refers_withRow (p q : StorePath) : (db.withRow new hpath hid).Refers p q ↔ db.Refers p q := by
  simp only [Refers, queryPathInfo_withRow]
  constructor
  · rintro ⟨a, b, ha, hb, href⟩
    have hnew : ∀ r ∈ db.validPaths, r.id ≠ new.id := fun r hr h =>
      hid (List.mem_map.mpr ⟨r, hr, h⟩)
    split at ha
    · obtain rfl := Option.some.inj ha
      obtain ⟨r, hr, hrid⟩ := db.referrer_valid _ href
      exact absurd hrid (hnew r hr)
    · split at hb
      · obtain rfl := Option.some.inj hb
        obtain ⟨r, hr, hrid⟩ := db.reference_valid _ href
        exact absurd hrid (hnew r hr)
      · exact ⟨a, b, ha, hb, href⟩
  · rintro ⟨a, b, ha, hb, href⟩
    have hold : ∀ {path : StorePath} {r : ValidPathRow}, db.queryPathInfo path = some r →
        path ≠ new.path := by
      rintro path r hr rfl
      obtain ⟨hmem, hrpath⟩ := queryPathInfo_eq_some.mp hr
      exact hpath (List.mem_map.mpr ⟨r, hmem, hrpath⟩)
    exact ⟨a, b, by rw [if_neg (hold ha), ha], by rw [if_neg (hold hb), hb], href⟩

end WithRow

/-- What `registerValidPath` does to the tables for a new path without references: it
gets a row, and all else stays. -/
structure Registered (db db' : Database) (info : ValidPathInfo) : Prop where
  row : ∃ row, db'.queryPathInfo info.path = some row ∧ row.hash = info.narHash ∧
    row.narSize = (if info.narSize ≠ 0 then some info.narSize else none) ∧ row.ca = info.ca
  other : ∀ path, path ≠ info.path → db'.queryPathInfo path = db.queryPathInfo path
  refers : ∀ p q, db'.Refers p q ↔ db.Refers p q

theorem registerValidPath_new (cfg : StoreDirConfig) (now : Int) {info : ValidPathInfo}
    {contentAddressed : Bool} (hnew : ¬ db.Valid info.path) (hrefs : info.references = [])
    (hca : info.ca.isSome → contentAddressed = true) :
    ∃ db', db.registerValidPath cfg now info contentAddressed = .ok db' ∧ Registered db db' info := by
  have hpath : info.path ∉ db.validPaths.map (·.path) := by
    intro hmem
    obtain ⟨row, hrow, hpath⟩ := List.mem_map.mp hmem
    exact hnew (valid_iff.mpr ⟨row, queryPathInfo_eq_some.mpr ⟨hrow, hpath⟩⟩)
  have hcheck : ¬ (info.ca.isSome ∧ contentAddressed = false) := by
    rintro ⟨hsome, hfalse⟩
    rw [hca hsome] at hfalse
    cases hfalse
  have hadd : db.isValidPath_ info.path = false := by simpa [Valid] using hnew
  rw [registerValidPath, hadd, if_neg (by simp), addValidPath, if_neg hcheck, dif_neg hpath, hrefs]
  exact ⟨_, rfl, ⟨⟨_, (queryPathInfo_withRow _).trans (if_pos rfl), rfl, rfl, rfl⟩,
    fun path hne => (queryPathInfo_withRow path).trans (if_neg hne), refers_withRow⟩⟩

theorem Registered.valid_iff {db' : Database} {info : ValidPathInfo} (h : Registered db db' info)
    {other : StorePath} : db'.Valid other ↔ db.Valid other ∨ other = info.path := by
  by_cases hother : other = info.path
  · obtain ⟨row, hrow, -⟩ := h.row
    simp [Valid, isValidPath_, hother, hrow]
  · simp [Valid, isValidPath_, hother, h.other other hother]

theorem Invalidated.valid_iff {db' : Database} (h : Invalidated db db' path) {other : StorePath} :
    db'.Valid other ↔ db.Valid other ∧ other ≠ path := by
  simp only [Valid, isValidPath_, h.row]
  by_cases hother : other = path <;> simp [hother]

end Database

end Store
end Archinix
