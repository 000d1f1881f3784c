import Archinix.Host.DumpPath
import Archinix.Store.CollectGarbageSafety

/-!
# The store check

`verifyStore` of `local-store.cc`.  The names in the store directory and the rows
of `ValidPaths` are compared by a walk over the referrers of what is missing, which
shares the set of visited paths; then, if asked for, every entry of `.links` and
every path that is there is hashed.

`verifyStore_verdict` says what the verdict means, and that nothing but missing
hashes and sizes is written.
-/

namespace Archinix
namespace Store

open Foundation Util Host

/-- `LocalStore::MissingName`. -/
def MissingName : Bytes := str "x"

def goodStorePath (expected actual : StorePath) : Bool :=
  expected.hashPart = actual.hashPart ∧
    (expected.name = MissingName ∨ expected.name = actual.name)

/-- What `verifyPath` is passed by reference. -/
structure Verification where
  done : List StorePath
  validPaths : List StorePath
  errors : Bool

section VerifyStore

variable [Sha256] (config : LocalStoreConfig)

def queryPathInfo (storePath : StorePath) : Action ValidPathInfo := do
  let invalid : Exception := .error
    ⟨.invalidPath, "path '%s' is not valid", [config.printStorePath storePath]⟩
  match ← queryPathInfoUnchecked storePath with
  | some info => if goodStorePath storePath info.path then pure info else throw invalid
  | none => throw invalid

/-- `lockFile(fd, ltRead, wait)`. -/
def lockFileShared (p : Path) (wait : Bool) : Action Bool :=
  ask (.flockShared p wait) (Thrown (sysError "acquiring/releasing lock" []))

/-- `FdLock(fd, ltRead, true)`. -/
def fdLockShared (p : Path) : Action Bool := do
  if ← lockFileShared p false then pure true else lockFileShared p true

/-- The constructor of `DirectoryIterator`; an error of `readdir` ends the iteration
like the end of the directory does. -/
def directoryIterator (p : Path) : Action (List Name) := do
  let listing ← sys (.readdir p)
    (.systemError · ⟨.error, "cannot read directory %s", [CanonPath.abs p]⟩)
  pure (listing.entries.map (·.name))

def verifyPath (existsInStoreDir : StorePath → Bool) :
    Nat → Verification → StorePath → Action Verification
  | 0, _, _ => .spin
  | depth + 1, s, path => do
      checkInterrupt
      if path ∈ s.done then pure s
      else
        let s := { s with done := path :: s.done }
        if !existsInStoreDir path then
          let referrers ← queryReferrers path
          let s ← (referrers.filter (· ≠ path)).foldlM (verifyPath existsInStoreDir depth) s
          pure { s with errors := true }
        else pure { s with validPaths := insertStorePath path s.validPaths }

/-- One round of the loop over the store directory. -/
def insertStoreDirEntry (paths : List StorePath) (name : Name) : Action (List StorePath) := do
  checkInterrupt
  -- no file name has a slash
  if hslash : (47 : UInt8) ∉ name then
    match StorePath.ofBaseName name hslash with
    | .ok path => pure (insertStorePath path paths)
    | .error e => if e.cls = .badStorePath then pure paths else throw (.error e)
  else pure paths

def verifyAllValidPaths (depth : Nat) : Action Verification := do
  let names ← directoryIterator config.realStoreDir
  let storePathsInStoreDir ← names.foldlM insertStoreDirEntry []
  let paths ← queryAllValidPaths
  paths.foldlM (verifyPath (fun p => p ∈ storePathsInStoreDir) depth) ⟨[], [], false⟩

/-- One round of the loop over `.links`. -/
def verifyLink (errors : Bool) (name : Name) : Action Bool := do
  checkInterrupt
  let result ← hashPath (config.linksDir ++ [name])
  pure (if result.hash.nix32 ≠ name then true else errors)

/-- The `try` block of the loop over the valid paths. -/
def verifyContents (errors : Bool) (path : StorePath) : Action Bool := do
  let info ← queryPathInfo config path
  let current ← hashPath (config.toRealPath path)
  if info.narHash ≠ nullHash ∧ info.narHash ≠ current.hash then pure true
  else
    let fixHash := info.narHash = nullHash
    let fixSize := info.narSize = 0
    if fixHash ∨ fixSize then
      updatePathInfo
        { info with
          narHash := if fixHash then current.hash else info.narHash
          narSize := if fixSize then current.numBytesDigested else info.narSize }
    pure errors

/-- One round of the loop over the valid paths. -/
def verifyValidPath (errors : Bool) (path : StorePath) : Action Bool := do
  match ← (verifyContents config errors path).attempt with
  | .ok errors => pure errors
  | .error (.error _) | .error (.systemError _ _) =>
      -- asked only for how to log the error
      let _ ← isValidPath path
      pure true
  | .error e => throw e

def verifyStore (depth : Nat) (checkContents : Bool) : Action Bool := do
  let _ ← openGCLock config
  let _ ← fdLockShared config.gcLockPath
  let s ← verifyAllValidPaths config depth
  if checkContents then
    let links ← directoryIterator config.linksDir
    let errors ← links.foldlM (verifyLink config) s.errors
    s.validPaths.foldlM (verifyValidPath config) errors
  else pure s.errors

end VerifyStore

/-! ## Answers in a reliable environment -/

section Rules

variable {env : Environment} {config : LocalStoreConfig} {deep : Prop} {w : World}

theorem wp_query {α : Type} {o : Op} {x : Except Error α → Prop}
    {f : Op.Ret o → Except Error α} {Q : Except Exception α → World → Prop}
    (hexec : ∀ r w', exec env config o w r w' → Query env x (f r) ∧ w' = w) (hrel : env.Reliable)
    (h : ∀ r, x r → Q (Thrown .error r) w) :
    (ask o fun r => Thrown .error (f r)).wp (exec env config) deep Q w := by
  rw [wp_ask]
  intro r w' hrun
  obtain ⟨hx | ⟨hfail, -⟩, rfl⟩ := hexec r w' hrun
  · exact h _ hx
  · exact absurd hfail hrel.dbFails

theorem wp_queryReferrers {path : StorePath} {Q : Except Exception (List StorePath) → World → Prop}
    (hrel : env.Reliable) (h : ∀ l, l.Perm (w.db.queryReferrers path) → Q (.ok l) w) :
    (queryReferrers path).wp (exec env config) deep Q w := by
  refine wp_query (o := .queryReferrers path) (f := id) (fun _ _ hrun => hrun) hrel ?_
  rintro _ ⟨l, rfl, hperm⟩
  exact h l hperm

theorem wp_queryAllValidPaths {Q : Except Exception (List StorePath) → World → Prop}
    (hrel : env.Reliable) (h : ∀ l, l.Perm w.db.queryAllValidPaths → Q (.ok l) w) :
    queryAllValidPaths.wp (exec env config) deep Q w := by
  refine wp_query (o := .queryAllValidPaths) (f := id) (fun _ _ hrun => hrun) hrel ?_
  rintro _ ⟨l, rfl, hperm⟩
  exact h l hperm

theorem goodStorePath_self (p : StorePath) : goodStorePath p p = true := by simp [goodStorePath]

theorem queryPathInfo_spec (hrel : env.Reliable) {row : ValidPathRow} {path : StorePath}
    (hrow : w.db.queryPathInfo path = some row) {Q : Except Exception ValidPathInfo → World → Prop}
    (hok : row.hash.length = hashSizeSha256 → ∀ info : ValidPathInfo, info.path = path →
      info.narHash = row.hash → info.narSize = row.narSize.getD 0 → info.ca = row.ca →
      Q (.ok info) w)
    (hbad : row.hash.length ≠ hashSizeSha256 → ∀ e, Q (.error (.error e)) w) :
    (queryPathInfo config path).wp (exec env config) deep Q w := by
  rw [queryPathInfo, Prog.bind_def, Prog.wp_bind]
  refine wp_query (o := .queryPathInfo path) (f := id) (fun _ _ hrun => hrun) hrel ?_
  rintro _ rfl
  rw [Database.queryPathInfoInternal, hrow]
  by_cases hlen : row.hash.length = hashSizeSha256
  · simp only [hlen, ne_eq, not_true_eq_false, if_false, thrown_ok]
    rw [Prog.next_ok]
    dsimp only
    rw [if_pos (goodStorePath_self path)]
    exact hok hlen _ rfl rfl rfl rfl
  · simp only [hlen, ne_eq, not_false_eq_true, if_true, thrown_error]
    exact hbad hlen _

end Rules

/-! ## The walk over the referrers -/

/-- What a walk adds: the paths it visits, the missing ones among them as errors and
the others as valid paths. -/
structure Visits (db : Database) (present : StorePath → Bool) (s s' : Verification) : Prop where
  done : s.done ⊆ s'.done
  valid : ∀ p ∈ s'.done, p ∈ s.done ∨ db.Valid p
  errors : s'.errors = true ↔ s.errors = true ∨ ∃ p ∈ s'.done, p ∉ s.done ∧ present p = false
  validPaths : ∀ p, p ∈ s'.validPaths ↔
    p ∈ s.validPaths ∨ (p ∈ s'.done ∧ p ∉ s.done ∧ present p = true)
  nodup : s.validPaths.Nodup → s'.validPaths.Nodup

namespace Visits

variable {db : Database} {present : StorePath → Bool} {s s' s'' : Verification} {path : StorePath}

theorem refl (s : Verification) : Visits db present s s where
  done := List.Subset.refl _
  valid p hp := Or.inl hp
  errors := by
    constructor
    · exact Or.inl
    · rintro (h | ⟨p, hp, hnew, -⟩)
      · exact h
      · exact absurd hp hnew
  validPaths p := by
    constructor
    · exact Or.inl
    · rintro (h | ⟨hp, hnew, -⟩)
      · exact h
      · exact absurd hp hnew
  nodup := id

theorem trans (h : Visits db present s s') (h' : Visits db present s' s'') :
    Visits db present s s'' where
  done := List.Subset.trans h.done h'.done
  valid p hp := by
    rcases h'.valid p hp with hp' | hvalid
    · exact h.valid p hp'
    · exact Or.inr hvalid
  errors := by
    rw [h'.errors, h.errors]
    constructor
    · rintro ((herr | ⟨p, hp, hnew, habsent⟩) | ⟨p, hp, hnew, habsent⟩)
      · exact Or.inl herr
      · exact Or.inr ⟨p, h'.done hp, hnew, habsent⟩
      · exact Or.inr ⟨p, hp, fun hs => hnew (h.done hs), habsent⟩
    · rintro (herr | ⟨p, hp, hnew, habsent⟩)
      · exact Or.inl (Or.inl herr)
      · by_cases hp' : p ∈ s'.done
        · exact Or.inl (Or.inr ⟨p, hp', hnew, habsent⟩)
        · exact Or.inr ⟨p, hp, hp', habsent⟩
  validPaths p := by
    rw [h'.validPaths, h.validPaths]
    constructor
    · rintro ((hold | ⟨hp, hnew, hpresent⟩) | ⟨hp, hnew, hpresent⟩)
      · exact Or.inl hold
      · exact Or.inr ⟨h'.done hp, hnew, hpresent⟩
      · exact Or.inr ⟨hp, fun hs => hnew (h.done hs), hpresent⟩
    · rintro (hold | ⟨hp, hnew, hpresent⟩)
      · exact Or.inl (Or.inl hold)
      · by_cases hp' : p ∈ s'.done
        · exact Or.inl (Or.inr ⟨hp', hnew, hpresent⟩)
        · exact Or.inr ⟨hp, hp', hpresent⟩
  nodup hs := h'.nodup (h.nodup hs)

/-- A new path that is there. -/
theorem found (hnew : path ∉ s.done) (hvalid : db.Valid path) (hpresent : present path = true) :
    Visits db present s
      { s with done := path :: s.done, validPaths := insertStorePath path s.validPaths } where
  done := List.subset_cons_self _ _
  valid p hp := by
    rcases List.mem_cons.mp hp with rfl | hp
    · exact Or.inr hvalid
    · exact Or.inl hp
  errors := by
    constructor
    · exact Or.inl
    · rintro (h | ⟨p, hp, hp', habsent⟩)
      · exact h
      · rcases List.mem_cons.mp hp with rfl | hp
        · simp [hpresent] at habsent
        · exact absurd hp hp'
  validPaths p := by
    rw [mem_insertStorePath]
    constructor
    · rintro (rfl | hold)
      · exact Or.inr ⟨List.mem_cons_self, hnew, hpresent⟩
      · exact Or.inl hold
    · rintro (hold | ⟨hp, hp', -⟩)
      · exact Or.inr hold
      · rcases List.mem_cons.mp hp with rfl | hp
        · exact Or.inl rfl
        · exact absurd hp hp'
  nodup := nodup_insertStorePath

/-- A new path that is missing, after the walk over its referrers. -/
theorem missing (hnew : path ∉ s.done) (hvalid : db.Valid path) (habsent : present path = false)
    (h : Visits db present { s with done := path :: s.done } s') :
    Visits db present s { s' with errors := true } where
  done := List.Subset.trans (List.subset_cons_self _ _) h.done
  valid p hp := by
    rcases h.valid p hp with hp | hp
    · rcases List.mem_cons.mp hp with rfl | hp
      · exact Or.inr hvalid
      · exact Or.inl hp
    · exact Or.inr hp
  errors := by
    simp only [true_iff]
    exact Or.inr ⟨path, h.done List.mem_cons_self, hnew, habsent⟩
  validPaths p := by
    rw [h.validPaths]
    refine or_congr_right ⟨?_, ?_⟩
    · rintro ⟨hp, hp', hpresent⟩
      exact ⟨hp, fun hs => hp' (List.mem_cons_of_mem _ hs), hpresent⟩
    · rintro ⟨hp, hp', hpresent⟩
      refine ⟨hp, ?_, hpresent⟩
      rw [List.mem_cons, not_or]
      refine ⟨?_, hp'⟩
      rintro rfl
      simp [habsent] at hpresent
  nodup := h.nodup

end Visits

/-- How many registered paths a walk has not visited. -/
def remaining (db : Database) (s : Verification) : Nat :=
  (db.queryAllValidPaths.toFinset \ s.done.toFinset).card

theorem remaining_le {db : Database} {s s' : Verification} (h : s.done ⊆ s'.done) :
    remaining db s' ≤ remaining db s := by
  refine Finset.card_le_card (Finset.sdiff_subset_sdiff (Finset.Subset.refl _) fun p hp => ?_)
  rw [List.mem_toFinset] at hp ⊢
  exact h hp

theorem remaining_mark {db : Database} {s : Verification} {path : StorePath}
    (hvalid : db.Valid path) (hnew : path ∉ s.done) :
    remaining db { s with done := path :: s.done } < remaining db s := by
  refine Finset.card_lt_card (Finset.ssubset_iff_subset_ne.mpr ⟨?_, fun heq => ?_⟩)
  · refine Finset.sdiff_subset_sdiff (Finset.Subset.refl _) fun p hp => ?_
    rw [List.mem_toFinset] at hp ⊢
    exact List.mem_cons_of_mem _ hp
  · have hmem : path ∈ db.queryAllValidPaths.toFinset \ s.done.toFinset := by
      simp [Database.mem_queryAllValidPaths.mpr hvalid, hnew]
    rw [← heq] at hmem
    simp at hmem

theorem remaining_le_length (db : Database) (s : Verification) :
    remaining db s ≤ db.validPaths.length := by
  refine (Finset.card_le_card Finset.sdiff_subset).trans ((List.toFinset_card_le _).trans ?_)
  simp [Database.queryAllValidPaths]

section Walk

variable {env : Environment} {config : LocalStoreConfig} {deep : Prop} {w : World}
  {present : StorePath → Bool}

/-- A walk over a list of registered paths visits them all. -/
theorem verifyPaths_spec {depth : Nat} {paths : List StorePath} {s : Verification}
    (hpath : ∀ s path, w.db.Valid path → remaining w.db s < depth →
      (verifyPath present depth s path).wp (exec env config) deep
        (fun r w' => w' = w ∧ ∃ s', r = .ok s' ∧ Visits w.db present s s' ∧ path ∈ s'.done) w)
    (hvalid : ∀ p ∈ paths, w.db.Valid p) (hdepth : remaining w.db s < depth) :
    (paths.foldlM (verifyPath present depth) s).wp (exec env config) deep
      (fun r w' => w' = w ∧ ∃ s', r = .ok s' ∧ Visits w.db present s s' ∧ ∀ p ∈ paths, p ∈ s'.done)
      w := by
  refine Prog.wp_foldlM (fun rest c w' => w' = w ∧ (∀ p ∈ rest, w.db.Valid p) ∧
    Visits w.db present s c ∧ ∀ p ∈ paths, p ∈ rest ∨ p ∈ c.done) ?_ ?_
    ⟨rfl, hvalid, .refl s, fun p hp => Or.inl hp⟩
  · rintro p rest c _ ⟨rfl, hrest, hvisits, hdone⟩
    refine Prog.wp_mono (hpath c p (hrest p (by simp)) ?_) ?_
    · exact (remaining_le hvisits.done).trans_lt hdepth
    · rintro _ _ ⟨rfl, c', rfl, hvisits', hp⟩
      refine ⟨rfl, fun q hq => hrest q (List.mem_cons_of_mem _ hq), hvisits.trans hvisits', ?_⟩
      intro q hq
      rcases hdone q hq with hq | hq
      · rcases List.mem_cons.mp hq with rfl | hq
        · exact Or.inr hp
        · exact Or.inl hq
      · exact Or.inr (hvisits'.done hq)
  · rintro c _ ⟨rfl, -, hvisits, hdone⟩
    exact ⟨rfl, c, rfl, hvisits, fun p hp => (hdone p hp).resolve_left (by simp)⟩

/-- `verifyPath` visits the path, and recurses no deeper than there are registered
paths it has not visited. -/
theorem verifyPath_spec (hrel : env.Reliable) {depth : Nat} {s : Verification} {path : StorePath}
    (hvalid : w.db.Valid path) (hdepth : remaining w.db s < depth) :
    (verifyPath present depth s path).wp (exec env config) deep
      (fun r w' => w' = w ∧ ∃ s', r = .ok s' ∧ Visits w.db present s s' ∧ path ∈ s'.done) w := by
  induction depth generalizing s path with
  | zero => exact absurd hdepth (Nat.not_lt_zero _)
  | succ depth ih =>
      rw [verifyPath, Prog.bind_def, Prog.wp_bind, wp_checkInterrupt]
      refine ⟨?_, fun hint => absurd hint hrel.interrupts⟩
      rw [Prog.next_ok]
      split
      · rename_i hdone
        exact ⟨rfl, s, rfl, .refl s, hdone⟩
      · rename_i hnew
        dsimp only
        split
        · rename_i hpresent
          have habsent : present path = false := by simpa using hpresent
          rw [Prog.bind_def, Prog.wp_bind]
          refine wp_queryReferrers hrel fun l hperm => ?_
          rw [Prog.next_ok, Prog.bind_def, Prog.wp_bind]
          -- one path fewer is left, and so much less depth is needed
          refine Prog.wp_mono (verifyPaths_spec (fun s path => ih) ?_ ?_) ?_
          · intro q hq
            have hreferrer := hperm.mem_iff.mp (List.mem_filter.mp hq).1
            exact (Database.mem_queryReferrers.mp hreferrer).valid_left
          · exact Nat.lt_of_lt_of_le (remaining_mark hvalid hnew) (Nat.lt_succ_iff.mp hdepth)
          · rintro _ _ ⟨rfl, s', rfl, hvisits, -⟩
            exact ⟨rfl, _, rfl, .missing hnew hvalid habsent hvisits,
              hvisits.done List.mem_cons_self⟩
        · rename_i hpresent
          exact ⟨rfl, _, rfl, .found hnew hvalid (by simpa using hpresent), List.mem_cons_self⟩

theorem directoryIterator_spec (hrel : env.Reliable) {p : Path} (hdir : w.fs.IsDir p) :
    (directoryIterator p).wp (exec env config) deep
      (fun r w' => w' = w ∧ ∃ names, r = .ok names ∧
        ∀ name, name ∈ names ↔ w.fs.node (p ++ [name]) ≠ none) w := by
  rw [directoryIterator, Prog.bind_def, Prog.wp_bind, wp_sys]
  intro x fs hout
  obtain ⟨rfl, ⟨listing, rfl, hreads, hcut⟩ | ⟨e, rfl, hfail⟩⟩ := hout.readdir
  · rw [thrown_ok, Prog.next_ok]
    refine ⟨rfl, _, rfl, fun name => ?_⟩
    have hall := hreads.all (Option.eq_none_iff_forall_ne_some.mpr fun e he =>
      hrel.faults _ e (hcut e he))
    rw [← FileSystem.mem_names, ← FileSystem.map_name_entries]
    exact (hall.map _).mem_iff
  · rcases hfail with hfault | hnot
    · exact absurd hfault (hrel.faults _ e)
    · exact absurd hdir hnot

/-- One name of the store directory: it is inserted if it is a store path's. -/
theorem insertStoreDirEntry_spec (hrel : env.Reliable) (paths : List StorePath) (name : Name) :
    (insertStoreDirEntry paths name).wp (exec env config) deep
      (fun r w' => w' = w ∧ ∃ paths', r = .ok paths' ∧
        ∀ p, p ∈ paths' ↔ p.baseName = name ∨ p ∈ paths) w := by
  rw [insertStoreDirEntry, Prog.bind_def, Prog.wp_bind, wp_checkInterrupt]
  refine ⟨?_, fun hint => absurd hint hrel.interrupts⟩
  rw [Prog.next_ok]
  split
  · rename_i hslash
    rcases hparse : StorePath.ofBaseName name hslash with e | path
    · have hnone : ∀ p : StorePath, p.baseName ≠ name := by
        rintro p rfl
        rw [StorePath.ofBaseName_baseName] at hparse
        cases hparse
      have hcls : e.cls = .badStorePath := by
        unfold StorePath.ofBaseName at hparse
        split at hparse
        · cases hparse
        · rename_i e' hcheck
          obtain rfl := Except.error.inj hparse
          exact checkBaseName_error hcheck
      simp only [hcls, if_true]
      exact ⟨rfl, paths, rfl, fun p => by simp [hnone p]⟩
    · have hname : path.baseName = name := by
        unfold StorePath.ofBaseName at hparse
        split at hparse
        · rw [← Except.ok.inj hparse]
        · cases hparse
      refine ⟨rfl, _, rfl, fun p => ?_⟩
      rw [mem_insertStorePath, ← hname]
      refine or_congr_left ⟨fun h => h ▸ rfl, StorePath.ext⟩
  · rename_i hslash
    refine ⟨rfl, paths, rfl, fun p => ⟨Or.inr, ?_⟩⟩
    rintro (rfl | hp)
    · exact absurd p.noSlash hslash
    · exact hp

/-- The registered paths that are there, and whether one is missing. -/
structure Verified (config : LocalStoreConfig) (w : World) (s : Verification) : Prop where
  validPaths : ∀ p, p ∈ s.validPaths ↔ w.db.Valid p ∧ w.fs.node (config.toRealPath p) ≠ none
  nodup : s.validPaths.Nodup
  errors : s.errors = true ↔ ∃ p, w.db.Valid p ∧ w.fs.node (config.toRealPath p) = none

theorem verifyAllValidPaths_spec (hrel : env.Reliable) (hstore : w.fs.IsDir config.realStoreDir)
    {depth : Nat} (hdepth : w.db.validPaths.length < depth) :
    (verifyAllValidPaths config depth).wp (exec env config) deep
      (fun r w' => w' = w ∧ ∃ s, r = .ok s ∧ Verified config w s) w := by
  rw [verifyAllValidPaths, Prog.bind_def, Prog.wp_bind]
  refine Prog.wp_mono (directoryIterator_spec hrel hstore) ?_
  rintro _ w' ⟨rfl, names, rfl, hnames⟩
  rw [Prog.next_ok, Prog.bind_def, Prog.wp_bind]
  refine Prog.wp_mono (Q := fun r w => w = w' ∧ ∃ paths, r = .ok paths ∧
    ∀ p : StorePath, p ∈ paths ↔ w.fs.node (config.toRealPath p) ≠ none) ?_ ?_
  · refine Prog.wp_foldlM (fun rest (c : List StorePath) w => w = w' ∧
      ∀ p : StorePath, p.baseName ∈ rest ∨ p ∈ c ↔ w.fs.node (config.toRealPath p) ≠ none) ?_ ?_
      ⟨rfl, fun p => ?_⟩
    · rintro name rest c _ ⟨rfl, hc⟩
      refine Prog.wp_mono (insertStoreDirEntry_spec hrel c name) ?_
      rintro _ _ ⟨rfl, c', rfl, hc'⟩
      refine ⟨rfl, fun p => ?_⟩
      rw [← hc p, hc' p, List.mem_cons]
      tauto
    · rintro c _ ⟨rfl, hc⟩
      exact ⟨rfl, c, rfl, fun p => by simpa using hc p⟩
    · rw [hnames, LocalStoreConfig.toRealPath]
      simp
  · rintro _ _ ⟨rfl, paths, rfl, hpaths⟩
    rw [Prog.next_ok, Prog.bind_def, Prog.wp_bind]
    refine wp_queryAllValidPaths hrel fun l hperm => ?_
    rw [Prog.next_ok]
    refine Prog.wp_mono (verifyPaths_spec (fun s path hvalid hlt => verifyPath_spec hrel hvalid hlt)
      ?_ ((remaining_le_length _ _).trans_lt hdepth)) ?_
    · exact fun p hp => Database.mem_queryAllValidPaths.mp (hperm.mem_iff.mp hp)
    · rintro _ w ⟨rfl, s, rfl, hvisits, hall⟩
      have hdone : ∀ p, p ∈ s.done ↔ w.db.Valid p := by
        intro p
        constructor
        · intro hp
          exact (hvisits.valid p hp).resolve_left (by simp)
        · intro hp
          exact hall p (hperm.mem_iff.mpr (Database.mem_queryAllValidPaths.mpr hp))
      refine ⟨rfl, s, rfl, fun p => ?_, hvisits.nodup (by simp), ?_⟩
      · simp [hvisits.validPaths, hdone, hpaths]
      · simp [hvisits.errors, hdone, hpaths]

end Walk

/-! ## Contents -/

theorem nar_length_ne_zero (t : Tree) : t.nar.length ≠ 0 := by
  have hpos : 0 < (encodeString narVersionMagic1).length := by decide
  rw [Tree.nar, List.length_append]
  omega

section Contents

variable [Sha256] (config : LocalStoreConfig)

/-- The path of the row is there, it can be archived, and its hash is the recorded
one if that is known. -/
def Intact (fs : FileSystem) (row : ValidPathRow) : Prop :=
  ∃ t, fs.Archives (config.toRealPath row.path) t ∧
    (row.hash = nullHash ∨ row.hash = hashString t.nar)

/-- The entry of `.links` is named by the hash of its node. -/
def WellNamed (fs : FileSystem) (name : Name) : Prop :=
  ∃ t, fs.Archives (config.linksDir ++ [name]) t ∧ name = (hashString t.nar).nix32

/-- A row whose missing hash or size may have been filled in from the tree that is
there. -/
structure FilledIn (fs : FileSystem) (row row' : ValidPathRow) : Prop where
  id : row'.id = row.id
  path : row'.path = row.path
  registrationTime : row'.registrationTime = row.registrationTime
  ca : row'.ca = row.ca
  hash : row'.hash = row.hash ∨ (row.hash = nullHash ∧
    ∃ t, fs.Archives (config.toRealPath row.path) t ∧ row'.hash = hashString t.nar)
  narSize : row'.narSize = row.narSize ∨ (row.narSize.getD 0 = 0 ∧
    ∃ t, fs.Archives (config.toRealPath row.path) t ∧ row'.narSize = some t.nar.length)

theorem FilledIn.refl (fs : FileSystem) (row : ValidPathRow) : FilledIn config fs row row :=
  ⟨rfl, rfl, rfl, rfl, Or.inl rfl, Or.inl rfl⟩

/-- Rows stay, but for hashes and sizes that were missing. -/
def OnlyFills (fs : FileSystem) (db db' : Database) : Prop :=
  db'.refs = db.refs ∧ ∃ f, db'.validPaths = db.validPaths.map f ∧
    ∀ row ∈ db.validPaths, FilledIn config fs row (f row)

variable {config} {env : Environment} {deep : Prop} {w : World}

theorem hashPath_spec (hrel : env.Reliable) {p : Path}
    {Q : Except Exception HashResult → World → Prop}
    (hok : ∀ t, w.fs.Archives p t → Q (.ok (hashSink t.nar)) w)
    (hnone : (∀ t, ¬ w.fs.Archives p t) → ∀ e, Q (.error (.error e)) w) :
    (hashPath p).wp (exec env config) deep Q w := by
  rw [hashPath, wp_ask]
  rintro x w' ⟨hdump, rfl⟩
  cases hdump with
  | run kernel =>
      rcases dumpPath_cases w'.fs kernel p with ⟨t, ht, hdump⟩ | ⟨hno, bs, e, hdump⟩
      · rw [hdump]
        exact hok t ht
      · rw [hdump]
        exact hnone hno e
  | fault _ _ hfault => exact absurd hfault (hrel.faults _ _)
  | interrupt _ hint => exact absurd hint hrel.interrupts

/-- One entry of `.links`, which can be archived. -/
theorem verifyLink_spec (hrel : env.Reliable) {errors : Bool} {name : Name}
    (hlink : ∃ t, w.fs.Archives (config.linksDir ++ [name]) t) :
    (verifyLink config errors name).wp (exec env config) deep
      (fun r w' => w' = w ∧ ∃ errors', r = .ok errors' ∧
        (errors' = true ↔ errors = true ∨ ¬ WellNamed config w.fs name)) w := by
  rw [verifyLink, Prog.bind_def, Prog.wp_bind, wp_checkInterrupt]
  refine ⟨?_, fun hint => absurd hint hrel.interrupts⟩
  rw [Prog.next_ok, Prog.bind_def, Prog.wp_bind]
  refine hashPath_spec hrel (fun t ht => ?_) fun hno => absurd hlink (by simpa using hno)
  rw [Prog.next_ok]
  refine ⟨rfl, _, rfl, ?_⟩
  have hnamed : WellNamed config w.fs name ↔ (hashString t.nar).nix32 = name := by
    constructor
    · rintro ⟨u, hu, hname⟩
      rw [hname, ht.nar_unique hu]
    · exact fun h => ⟨t, ht, h.symm⟩
  rw [hnamed, hashSink]
  split
  · rename_i hbad
    simp only [true_iff]
    exact Or.inr hbad
  · rename_i hgood
    rw [not_not] at hgood
    simp [hgood]

/-- Nothing changes, or a row gets what was missing. -/
structure Updates (config : LocalStoreConfig) (w w' : World) (row : ValidPathRow) : Prop where
  fs : w'.fs = w.fs
  db : w'.db = w.db ∨ ∃ info : ValidPathInfo, w'.db = w.db.updatePathInfo info ∧
    info.path = row.path ∧ FilledIn config w.fs row (info.update row)

theorem Updates.refl (w : World) (row : ValidPathRow) : Updates config w w row := ⟨rfl, Or.inl rfl⟩

/-- The row with what the checks fill in. -/
theorem filledIn_update {fs : FileSystem} {info : ValidPathInfo} {row : ValidPathRow} {t : Tree}
    (ht : fs.Archives (config.toRealPath row.path) t) (hpath : info.path = row.path)
    (hhash : info.narHash = row.hash) (hsize : info.narSize = row.narSize.getD 0)
    (hca : info.ca = row.ca) :
    FilledIn config fs row (ValidPathInfo.update
      { info with
        narHash := if info.narHash = nullHash then hashString t.nar else info.narHash
        narSize := if info.narSize = 0 then t.nar.length else info.narSize } row) := by
  rw [ValidPathInfo.update, if_pos hpath.symm]
  refine ⟨rfl, rfl, rfl, hca, ?_, ?_⟩
  · dsimp only
    rw [hhash]
    split
    · rename_i hnull
      exact Or.inr ⟨hnull, t, ht, rfl⟩
    · exact Or.inl rfl
  · dsimp only
    rw [hsize]
    rcases hrow : row.narSize with - | n
    · simp only [Option.getD_none, if_true, if_pos (nar_length_ne_zero t)]
      exact Or.inr ⟨trivial, t, ht, rfl⟩
    · rw [Option.getD_some]
      split_ifs with hzero hlength
      · exact Or.inr ⟨hzero, t, ht, rfl⟩
      · exact absurd (nar_length_ne_zero t) hlength
      · exact Or.inl rfl

theorem verifyContents_spec (hrel : env.Reliable) {errors : Bool} {row : ValidPathRow}
    {path : StorePath} (hrow : w.db.queryPathInfo path = some row) :
    (verifyContents config errors path).wp (exec env config) deep
      (fun r w' => Updates config w w' row ∧
        ((∃ errors', r = .ok errors' ∧
          (errors' = true ↔ errors = true ∨ ¬ Intact config w.fs row)) ∨
        ((∃ e, r = .error (.error e)) ∧ ¬ Intact config w.fs row))) w := by
  obtain ⟨-, rfl⟩ := Database.queryPathInfo_eq_some.mp hrow
  rw [verifyContents, Prog.bind_def, Prog.wp_bind]
  refine queryPathInfo_spec hrel hrow (fun hlen info hpath hhash hsize hca => ?_)
    fun hlen e => ?_
  · rw [Prog.next_ok, Prog.bind_def, Prog.wp_bind]
    refine hashPath_spec hrel (fun t ht => ?_) fun hno e => ?_
    · rw [Prog.next_ok]
      have hintact : Intact config w.fs row ↔ row.hash = nullHash ∨ row.hash = hashString t.nar := by
        constructor
        · rintro ⟨u, hu, h⟩
          rwa [ht.nar_unique hu]
        · exact fun h => ⟨t, ht, h⟩
      split
      · rename_i hbad
        rw [hhash, hashSink] at hbad
        refine ⟨.refl w row, Or.inl ⟨true, rfl, ?_⟩⟩
        simp [hintact, hbad.1, hbad.2]
      · rename_i hgood
        rw [hhash, hashSink] at hgood
        have hverdict : errors = true ↔ errors = true ∨ ¬ Intact config w.fs row := by
          rw [hintact]
          tauto
        dsimp only
        split
        · rw [Prog.bind_def, Prog.wp_bind, updatePathInfo, wp_ask]
          rintro x w' (⟨db, hdb, rfl, rfl⟩ | ⟨e, hdb, -⟩ | ⟨hfail, -⟩)
          · obtain rfl := Except.ok.inj hdb
            rw [thrown_ok, Prog.next_ok]
            exact ⟨⟨rfl, Or.inr ⟨_, rfl, hpath, filledIn_update ht hpath hhash hsize hca⟩⟩,
              Or.inl ⟨errors, rfl, hverdict⟩⟩
          · cases hdb
          · exact absurd hfail hrel.dbFails
        · exact ⟨.refl w row, Or.inl ⟨errors, rfl, hverdict⟩⟩
    · refine ⟨.refl w row, Or.inr ⟨⟨e, rfl⟩, ?_⟩⟩
      rintro ⟨t, ht, -⟩
      exact hno t ht
  · refine ⟨.refl w row, Or.inr ⟨⟨e, rfl⟩, ?_⟩⟩
    rintro ⟨t, -, h | h⟩
    · exact hlen (by rw [h, nullHash, List.length_replicate])
    · exact hlen (by rw [h, length_hashString])

/-- One registered path: a failure of its checks counts as an error. -/
theorem verifyValidPath_spec (hrel : env.Reliable) {errors : Bool} {row : ValidPathRow}
    {path : StorePath} (hrow : w.db.queryPathInfo path = some row) :
    (verifyValidPath config errors path).wp (exec env config) deep
      (fun r w' => Updates config w w' row ∧ ∃ errors', r = .ok errors' ∧
        (errors' = true ↔ errors = true ∨ ¬ Intact config w.fs row)) w := by
  rw [verifyValidPath, Prog.bind_def, Prog.wp_bind, Prog.wp_attempt]
  refine Prog.wp_mono (verifyContents_spec hrel hrow) ?_
  rintro _ w' ⟨hupdates, ⟨errors', rfl, hverdict⟩ | ⟨⟨e, rfl⟩, hbad⟩⟩
  · exact ⟨hupdates, errors', rfl, hverdict⟩
  · rw [Prog.next_ok]
    dsimp only
    rw [Prog.bind_def, Prog.wp_bind, isValidPath]
    refine wp_query (x := fun r => ∃ valid, r = .ok valid) (o := .isValidPath path) (f := id)
      (fun r w₁ hrun => ⟨hrun.1.imp (fun h => ⟨_, h⟩) id, hrun.2⟩) hrel ?_
    rintro _ ⟨valid, rfl⟩
    rw [thrown_ok, Prog.next_ok]
    exact ⟨hupdates, true, rfl, by simp [hbad]⟩

theorem verifyLinks_spec (hrel : env.Reliable) {errors : Bool} {names : List Name}
    (hlinks : ∀ name ∈ names, ∃ t, w.fs.Archives (config.linksDir ++ [name]) t) :
    (names.foldlM (verifyLink config) errors).wp (exec env config) deep
      (fun r w' => w' = w ∧ ∃ errors', r = .ok errors' ∧
        (errors' = true ↔ errors = true ∨ ∃ name ∈ names, ¬ WellNamed config w.fs name)) w := by
  refine Prog.wp_foldlM (fun rest c w' => w' = w ∧ (∀ name ∈ rest, name ∈ names) ∧
    (errors = true ∨ (∃ name ∈ names, ¬ WellNamed config w.fs name) ↔
      c = true ∨ ∃ name ∈ rest, ¬ WellNamed config w.fs name)) ?_ ?_
    ⟨rfl, fun _ h => h, Iff.rfl⟩
  · rintro name rest c _ ⟨rfl, hrest, hverdict⟩
    refine Prog.wp_mono (verifyLink_spec hrel (hlinks name (hrest name (by simp)))) ?_
    rintro _ _ ⟨rfl, c', rfl, hc'⟩
    refine ⟨rfl, fun n hn => hrest n (List.mem_cons_of_mem _ hn), ?_⟩
    rw [hverdict, hc', List.exists_mem_cons_iff, or_assoc]
  · rintro c _ ⟨rfl, -, hverdict⟩
    exact ⟨rfl, c, rfl, by simpa using hverdict.symm⟩

/-- What the loop over the valid paths has filled in when `rest` is still to come. -/
structure Filling (config : LocalStoreConfig) (rest : List StorePath) (w w' : World) : Prop where
  fs : w'.fs = w.fs
  refs : w'.db.refs = w.db.refs
  rows : ∃ f, w'.db.validPaths = w.db.validPaths.map f ∧ ∀ row ∈ w.db.validPaths,
    FilledIn config w.fs row (f row) ∧ (row.path ∈ rest → f row = row)

/-- The row of a path still to come is what it was. -/
theorem Filling.queryPathInfo {rest : List StorePath} {w' : World} (h : Filling config rest w w')
    {p : StorePath} {row : ValidPathRow} (hp : p ∈ rest) (hrow : w.db.queryPathInfo p = some row) :
    w'.db.queryPathInfo p = some row := by
  obtain ⟨f, hrows, hf⟩ := h.rows
  obtain ⟨hmem, rfl⟩ := Database.queryPathInfo_eq_some.mp hrow
  refine Database.queryPathInfo_eq_some.mpr ⟨?_, rfl⟩
  rw [hrows, ← (hf row hmem).2 hp]
  exact List.mem_map_of_mem hmem

theorem Filling.step {rest : List StorePath} {w' w'' : World} {row : ValidPathRow}
    (h : Filling config (row.path :: rest) w w') (hmem : row ∈ w.db.validPaths)
    (hnew : row.path ∉ rest) (hupdates : Updates config w' w'' row) :
    Filling config rest w w'' := by
  obtain ⟨f, hrows, hf⟩ := h.rows
  rcases hupdates.db with hdb | ⟨info, hdb, hpath, hfilled⟩
  · refine ⟨hupdates.fs.trans h.fs, by rw [hdb, h.refs], f, by rw [hdb, hrows], fun r hr => ?_⟩
    exact ⟨(hf r hr).1, fun hrest => (hf r hr).2 (List.mem_cons_of_mem _ hrest)⟩
  · refine ⟨hupdates.fs.trans h.fs, by rw [hdb]; exact h.refs, info.update ∘ f, ?_, fun r hr => ?_⟩
    · rw [hdb, ← List.map_map, ← hrows]
      rfl
    · obtain ⟨hr', hrest'⟩ := hf r hr
      by_cases hsame : r.path = row.path
      · obtain rfl : r = row := List.inj_on_of_nodup_map w.db.path_unique hr hmem hsame
        rw [Function.comp_apply, hrest' List.mem_cons_self]
        rw [h.fs] at hfilled
        exact ⟨hfilled, fun hrest => absurd hrest hnew⟩
      · have hother : info.update (f r) = f r := by
          rw [ValidPathInfo.update, if_neg]
          rwa [hr'.path, hpath]
        rw [Function.comp_apply, hother]
        exact ⟨hr', fun hrest => hrest' (List.mem_cons_of_mem _ hrest)⟩

theorem verifyValidPaths_spec (hrel : env.Reliable) {errors : Bool} {paths : List StorePath}
    (hnodup : paths.Nodup) (hvalid : ∀ p ∈ paths, w.db.Valid p) :
    (paths.foldlM (verifyValidPath config) errors).wp (exec env config) deep
      (fun r w' => w'.fs = w.fs ∧ OnlyFills config w.fs w.db w'.db ∧ ∃ errors', r = .ok errors' ∧
        (errors' = true ↔ errors = true ∨
          ∃ row ∈ w.db.validPaths, row.path ∈ paths ∧ ¬ Intact config w.fs row)) w := by
  refine Prog.wp_foldlM (fun rest c w' => Filling config rest w w' ∧ rest.Nodup ∧
    (∀ p ∈ rest, p ∈ paths) ∧
    (errors = true ∨ (∃ row ∈ w.db.validPaths, row.path ∈ paths ∧ ¬ Intact config w.fs row) ↔
      c = true ∨ ∃ row ∈ w.db.validPaths, row.path ∈ rest ∧ ¬ Intact config w.fs row)) ?_ ?_
    ⟨⟨rfl, rfl, id, by simp, fun row _ => ⟨.refl config _ row, fun _ => rfl⟩⟩, hnodup,
      fun _ h => h, Iff.rfl⟩
  · rintro p rest c w' ⟨hfilling, hnodup, hrest, hverdict⟩
    obtain ⟨hp, hnodup'⟩ := List.nodup_cons.mp hnodup
    obtain ⟨row, hrow⟩ := Database.valid_iff.mp (hvalid p (hrest p (by simp)))
    obtain ⟨hmem, hpath⟩ := Database.queryPathInfo_eq_some.mp hrow
    refine Prog.wp_mono (verifyValidPath_spec hrel
      (hfilling.queryPathInfo List.mem_cons_self hrow)) ?_
    rintro _ w'' ⟨hupdates, c', rfl, hc'⟩
    subst hpath
    refine ⟨hfilling.step hmem hp hupdates, hnodup',
      fun q hq => hrest q (List.mem_cons_of_mem _ hq), ?_⟩
    rw [hverdict, hc', hfilling.fs, or_assoc]
    refine or_congr_right ⟨?_, ?_⟩
    · rintro ⟨r, hr, hrpath, hbad⟩
      rcases List.mem_cons.mp hrpath with hsame | hrpath
      · obtain rfl : r = row := List.inj_on_of_nodup_map w.db.path_unique hr hmem hsame
        exact Or.inl hbad
      · exact Or.inr ⟨r, hr, hrpath, hbad⟩
    · rintro (hbad | ⟨r, hr, hrpath, hbad⟩)
      · exact ⟨row, hmem, List.mem_cons_self, hbad⟩
      · exact ⟨r, hr, List.mem_cons_of_mem _ hrpath, hbad⟩
  · rintro c w' ⟨hfilling, -, -, hverdict⟩
    obtain ⟨f, hrows, hf⟩ := hfilling.rows
    exact ⟨hfilling.fs, ⟨hfilling.refs, f, hrows, fun row hrow => (hf row hrow).1⟩, c, rfl,
      by simpa using hverdict.symm⟩

end Contents

/-! ## The verdict -/

section Verdict

variable {env : Environment} {config : LocalStoreConfig} {deep : Prop} {w : World}

/-- All entries of `.links` are files or symlinks. -/
def LeafLinks (config : LocalStoreConfig) (fs : FileSystem) : Prop :=
  ∀ name ∈ fs.names config.linksDir, ∃ i, fs.node (config.linksDir ++ [name]) = some (.leaf i) ∧
    ∀ type, (fs.inode i).kind ≠ .special type

theorem openGCLock_spec (hrel : env.Reliable) (hlayout : Layout config w.fs) :
    (openGCLock config).wp (exec env config) deep (fun r w' => w'.db = w.db ∧
      Keeps {config.gcLockPath} {config.stateDir} w.fs w'.fs ∧ ∃ fd, r = .ok fd) w := by
  rw [openGCLock, wp_sys]
  intro x fs hout
  rcases hout.openLock with ⟨⟨i, rfl⟩, ⟨rfl, -⟩ | ⟨inode, hcreated⟩⟩ | ⟨rfl, e, rfl, hfail⟩
  · exact ⟨rfl, .refl _ _ _, i, rfl⟩
  · have hkeeps := hcreated.keeps
    rw [parentDir_gcLock] at hkeeps
    exact ⟨rfl, hkeeps, i, rfl⟩
  · exfalso
    rcases hfail with hfault | ⟨mode, mtime, hdir⟩ | ⟨target, i, hnode, hkind⟩ | hparent
    · exact hrel.faults _ e hfault
    · obtain ⟨i, contents, hleaf, -⟩ := hlayout.gcLock _ hdir
      cases hleaf
    · obtain ⟨j, contents, hleaf, hregular⟩ := hlayout.gcLock _ hnode
      obtain rfl : i = j := by simpa using hleaf
      rw [hkind] at hregular
      cases hregular
    · rw [parentDir_gcLock] at hparent
      exact hparent hlayout.state

theorem fdLockShared_spec (hrel : env.Reliable) {p : Path} :
    (fdLockShared p).wp (exec env config) deep (fun r w' => w' = w ∧ ∃ got, r = .ok got) w := by
  have hlock : ∀ wait, (lockFileShared p wait).wp (exec env config) deep
      (fun r w' => w' = w ∧ ∃ got, r = .ok got) w := by
    intro wait
    rw [lockFileShared, wp_ask]
    rintro (e | got) _ ⟨hfail, rfl⟩
    · exact absurd (hfail ⟨e, rfl⟩) hrel.lockFails
    · exact ⟨rfl, got, rfl⟩
  rw [fdLockShared, Prog.bind_def, Prog.wp_bind]
  refine Prog.wp_mono (hlock false) ?_
  rintro _ _ ⟨rfl, got, rfl⟩
  rw [Prog.next_ok]
  cases got with
  | true => exact ⟨rfl, true, rfl⟩
  | false => exact hlock true

/-- The store is apart from the lock file and its directory. -/
theorem store_apart {p q : Path} (hp : config.realStoreDir <+: p) (hq : p <+: q) :
    q ∉ ({config.gcLockPath} : Set Path) ∧ q ∉ ({config.stateDir} : Set Path) := by
  obtain ⟨-, hlock, -, hstate⟩ := not_prepared config (Or.inl (hp.trans hq))
  exact ⟨hlock, hstate⟩

section Apart

variable {fs' : FileSystem} (h : Keeps {config.gcLockPath} {config.stateDir} w.fs fs')
include h

theorem store_node_eq {p : Path} (hp : config.realStoreDir <+: p) : fs'.node p = w.fs.node p := by
  obtain ⟨hlock, hstate⟩ := store_apart hp (List.prefix_refl p)
  exact h.node p hlock hstate

theorem store_archives_iff {p : Path} (hp : config.realStoreDir <+: p) {t : Tree} :
    fs'.Archives p t ↔ w.fs.Archives p t := h.archives_iff fun _ hq => store_apart hp hq

end Apart

variable [Sha256]

/-- Every registered path is there with the contents its row records, and every entry
of `.links` has the right name. -/
structure Consistent (config : LocalStoreConfig) (w : World) : Prop where
  paths : ∀ row ∈ w.db.validPaths, Intact config w.fs row
  links : ∀ name ∈ w.fs.names config.linksDir, WellNamed config w.fs name

/-- What verification finds and leaves, by the state it starts in. -/
structure Verdict (config : LocalStoreConfig) (checkContents : Bool) (w : World)
    (r : Except Exception Bool) (w' : World) : Prop where
  /-- Nothing is written to disk but an empty lock file, if there was none. -/
  keeps : Keeps {config.gcLockPath} {config.stateDir} w.fs w'.fs
  fills : OnlyFills config w.fs w.db w'.db
  quick : checkContents = false → w'.db = w.db ∧ ∃ errors, r = .ok errors ∧
    (errors = true ↔ ∃ p, w.db.Valid p ∧ w.fs.node (config.toRealPath p) = none)
  full : checkContents = true → ∃ errors, r = .ok errors ∧
    (errors = false ↔ Consistent config w)

section Transport

variable {fs' : FileSystem} (h : Keeps {config.gcLockPath} {config.stateDir} w.fs fs')
include h

theorem intact_iff {row : ValidPathRow} : Intact config fs' row ↔ Intact config w.fs row := by
  unfold Intact
  refine exists_congr fun t => and_congr_left fun _ => ?_
  exact store_archives_iff h (realStoreDir_prefix_toRealPath config row.path)

theorem wellNamed_iff {name : Name} : WellNamed config fs' name ↔ WellNamed config w.fs name := by
  unfold WellNamed
  refine exists_congr fun t => and_congr_left fun _ => ?_
  exact store_archives_iff h ((realStoreDir_prefix_linksDir config).trans (List.prefix_append _ _))

theorem FilledIn.of_keeps {row row' : ValidPathRow} (hrow : FilledIn config fs' row row') :
    FilledIn config w.fs row row' where
  id := hrow.id
  path := hrow.path
  registrationTime := hrow.registrationTime
  ca := hrow.ca
  hash := by
    rcases hrow.hash with hsame | ⟨hnull, t, ht, hhash⟩
    · exact Or.inl hsame
    · have ht' := (store_archives_iff h (realStoreDir_prefix_toRealPath config row.path)).mp ht
      exact Or.inr ⟨hnull, t, ht', hhash⟩
  narSize := by
    rcases hrow.narSize with hsame | ⟨hzero, t, ht, hsize⟩
    · exact Or.inl hsame
    · have ht' := (store_archives_iff h (realStoreDir_prefix_toRealPath config row.path)).mp ht
      exact Or.inr ⟨hzero, t, ht', hsize⟩

end Transport

/-- The verdict after the loops, put together. -/
theorem consistent_iff {s : Verification} {names : List Name} {errors : Bool}
    (hs : Verified config w s) (hnames : ∀ name, name ∈ names ↔ name ∈ w.fs.names config.linksDir)
    (herrors : errors = true ↔ (s.errors = true ∨ ∃ name ∈ names, ¬ WellNamed config w.fs name) ∨
      ∃ row ∈ w.db.validPaths, row.path ∈ s.validPaths ∧ ¬ Intact config w.fs row) :
    errors = false ↔ Consistent config w := by
  rw [← Bool.not_eq_true, herrors, hs.errors]
  constructor
  · intro hgood
    rw [not_or, not_or] at hgood
    obtain ⟨⟨hmissing, hlinks⟩, hrows⟩ := hgood
    refine ⟨fun row hrow => ?_, fun name hname => ?_⟩
    · by_contra hbad
      have hvalid : w.db.Valid row.path :=
        Database.valid_iff.mpr ⟨row, Database.queryPathInfo_eq_some.mpr ⟨hrow, rfl⟩⟩
      have hthere : w.fs.node (config.toRealPath row.path) ≠ none :=
        fun hnone => hmissing ⟨_, hvalid, hnone⟩
      exact hrows ⟨row, hrow, (hs.validPaths _).mpr ⟨hvalid, hthere⟩, hbad⟩
    · by_contra hbad
      exact hlinks ⟨name, (hnames name).mpr hname, hbad⟩
  · rintro hconsistent ((⟨p, hvalid, hnone⟩ | ⟨name, hname, hbad⟩) | ⟨row, hrow, -, hbad⟩)
    · obtain ⟨row, hrow⟩ := Database.valid_iff.mp hvalid
      obtain ⟨hmem, rfl⟩ := Database.queryPathInfo_eq_some.mp hrow
      obtain ⟨t, ht, -⟩ := hconsistent.paths row hmem
      exact ht.node_ne_none hnone
    · exact hbad (hconsistent.links name ((hnames name).mp hname))
    · exact hbad (hconsistent.paths row hrow)

theorem verifyStore_spec (hrel : env.Reliable) (hlayout : Layout config w.fs)
    (hleaf : LeafLinks config w.fs) (depth : Nat) (hdepth : w.db.validPaths.length < depth)
    (checkContents : Bool) :
    (verifyStore config depth checkContents).wp (exec env config) deep
      (Verdict config checkContents w) w := by
  rw [verifyStore, Prog.bind_def, Prog.wp_bind]
  refine Prog.wp_mono (openGCLock_spec hrel hlayout) ?_
  rintro _ w₁ ⟨hdb, hkeeps, fd, rfl⟩
  rw [Prog.next_ok, Prog.bind_def, Prog.wp_bind]
  refine Prog.wp_mono (fdLockShared_spec hrel) ?_
  rintro _ w₁ ⟨rfl, got, rfl⟩
  have hnode := fun p => store_node_eq (p := p) hkeeps
  have hstore : w₁.fs.IsDir config.realStoreDir := by
    rw [FileSystem.IsDir, hnode _ (List.prefix_refl _)]
    exact hlayout.store
  rw [Prog.next_ok, Prog.bind_def, Prog.wp_bind]
  refine Prog.wp_mono (verifyAllValidPaths_spec hrel hstore (by rwa [hdb])) ?_
  rintro _ w₁ ⟨rfl, s, rfl, hs⟩
  have hs' : Verified config w s := by
    refine ⟨fun p => ?_, hs.nodup, ?_⟩
    · rw [hs.validPaths, hdb, hnode _ (realStoreDir_prefix_toRealPath config p)]
    · rw [hs.errors]
      refine exists_congr fun p => ?_
      rw [hdb, hnode _ (realStoreDir_prefix_toRealPath config p)]
  rw [Prog.next_ok]
  cases checkContents with
  | false =>
      refine ⟨hkeeps, ?_, fun _ => ⟨hdb, s.errors, rfl, hs'.errors⟩, by simp⟩
      rw [hdb]
      exact ⟨rfl, id, by simp, fun row _ => .refl config _ row⟩
  | true =>
      rw [if_pos rfl, Prog.bind_def, Prog.wp_bind]
      have hlinksDir : w₁.fs.IsDir config.linksDir := by
        rw [FileSystem.IsDir, hnode _ (realStoreDir_prefix_linksDir config)]
        exact hlayout.links
      refine Prog.wp_mono (directoryIterator_spec hrel hlinksDir) ?_
      rintro _ w₁ ⟨rfl, names, rfl, hnames⟩
      have hnames' : ∀ name, name ∈ names ↔ name ∈ w.fs.names config.linksDir := by
        intro name
        rw [hnames, FileSystem.mem_names,
          hnode _ ((realStoreDir_prefix_linksDir config).trans (List.prefix_append _ _))]
      rw [Prog.next_ok, Prog.bind_def, Prog.wp_bind]
      refine Prog.wp_mono (verifyLinks_spec hrel fun name hname => ?_) ?_
      · obtain ⟨i, hi, hkind⟩ := hleaf name ((hnames' name).mp hname)
        obtain ⟨t, ht⟩ := archives_leaf hi hkind
        have hbelow := (realStoreDir_prefix_linksDir config).trans (List.prefix_append _ [name])
        exact ⟨t, (store_archives_iff hkeeps hbelow).mpr ht⟩
      · rintro _ w₁ ⟨rfl, errors, rfl, herrors⟩
        rw [Prog.next_ok]
        refine Prog.wp_mono (verifyValidPaths_spec hrel hs.nodup fun p hp =>
          ((hs.validPaths p).mp hp).1) ?_
        rintro _ w' ⟨hfs, ⟨hrefs, f, hrows, hfilled⟩, errors', rfl, herrors'⟩
        simp only [wellNamed_iff hkeeps] at herrors
        simp only [intact_iff hkeeps, herrors, hdb] at herrors'
        refine ⟨by rwa [hfs], ?_, by simp, fun _ => ⟨errors', rfl, ?_⟩⟩
        · rw [hdb] at hrefs hrows hfilled
          exact ⟨hrefs, f, hrows, fun row hrow => (hfilled row hrow).of_keeps hkeeps⟩
        · exact consistent_iff hs' hnames' herrors'

/-- With nothing failing, every run of `verifyStore` gets to an end, and it ends with
the verdict. -/
theorem verifyStore_verdict (hrel : env.Reliable) (hlayout : Layout config w.fs)
    (hleaf : LeafLinks config w.fs) (depth : Nat) (hdepth : w.db.validPaths.length < depth)
    (checkContents : Bool) :
    (∀ w₁ p₁, Prog.Steps (exec env config) w (verifyStore config depth checkContents) w₁ p₁ →
      ∃ r w', Prog.Ends (exec env config) w₁ p₁ r w') ∧
    ∀ r w', Prog.Ends (exec env config) w (verifyStore config depth checkContents) r w' →
      Verdict config checkContents w r w' := by
  refine ⟨fun w₁ p₁ hsteps => ?_, fun r w' hends => ?_⟩
  · have hspec : (verifyStore config depth checkContents).wp (exec env config) False
        (Verdict config checkContents w) w :=
      verifyStore_spec hrel hlayout hleaf depth hdepth checkContents
    exact (hspec.steps hsteps).total (exec_total env config)
  · have hspec : (verifyStore config depth checkContents).wp (exec env config) True
        (Verdict config checkContents w) w :=
      verifyStore_spec hrel hlayout hleaf depth hdepth checkContents
    exact hspec.ends hends

end Verdict

namespace Example

/-- The digest of the archive of an empty file. -/
def emptyFileHash : Hash :=
  [119, 172, 98, 226, 98, 157, 142, 69, 246, 36, 88, 156, 12, 139, 249, 158, 36, 179, 167, 34, 52, 155, 241, 231, 155, 193, 134, 0, 133, 52, 226, 70]

/-- SHA-256 on the archive of an empty file. -/
@[reducible] def sha256 : Sha256 := .ofTable [((Tree.regular false []).nar, emptyFileHash)] (by decide)

theorem leafLinks : LeafLinks config world.fs := by
  intro name hname
  have hnodes : ∀ e ∈ nodes, config.linksDir <+: e.1 → e.1 ≠ config.linksDir → e.2 = .leaf 2 := by
    decide
  obtain ⟨n, hn⟩ := Option.ne_none_iff_exists'.mp (FileSystem.mem_names.mp hname)
  have hmem : (config.linksDir ++ [name], n) ∈ nodes := FileSystem.mem_of_lookup hn
  obtain rfl : n = .leaf 2 := hnodes _ hmem (List.prefix_append _ _) (by simp)
  exact ⟨2, hn, fun type h => by cases h⟩

/-- A registered path of unknown hash, which is a device. -/
def deviceNodes : List (Path × Node) :=
  [([], directory), ([str "nix"], directory), (config.realStoreDir, directory),
   (config.toRealPath free, .leaf 0), (config.linksDir, directory),
   ([str "nix", str "var"], directory), (config.stateDir, directory), (config.dbDir, directory)]

def deviceWorld : World where
  fs := .ofNodes deviceNodes (fun _ => ⟨.special .char, 0o444, 1⟩) 1 (by decide)
  db := {
    validPaths := [⟨1, free, nullHash, 0, none, none⟩]
    refs := []
    path_unique := by decide
    id_unique := by decide
    referrer_valid := by decide
    reference_valid := by decide }

theorem deviceLayout : Layout config deviceWorld.fs where
  store := ⟨_, _, rfl⟩
  links := ⟨_, _, rfl⟩
  db := ⟨_, _, rfl⟩
  state := ⟨_, _, rfl⟩
  gcLock n hn := by
    rw [show deviceWorld.fs.node config.gcLockPath = none from rfl] at hn
    cases hn

theorem device_no_links : deviceWorld.fs.names config.linksDir = [] := by
  rw [List.eq_nil_iff_forall_not_mem]
  intro name hname
  have hnodes : ∀ e ∈ deviceNodes, config.linksDir <+: e.1 → e.1 = config.linksDir := by decide
  obtain ⟨n, hn⟩ := Option.ne_none_iff_exists'.mp (FileSystem.mem_names.mp hname)
  have hmem : (config.linksDir ++ [name], n) ∈ deviceNodes := FileSystem.mem_of_lookup hn
  have hsame := hnodes _ hmem (List.prefix_append _ _)
  simp at hsame

end Example

theorem verifyStore_verdict_example :
    letI := Example.sha256
    ∃ r w', Prog.Ends (exec Example.env Example.config) Example.world
        (verifyStore Example.config 3 true) r w' ∧
      Verdict Example.config true Example.world r w' := by
  let _ := Example.sha256
  obtain ⟨hgoes, hends⟩ := verifyStore_verdict Example.reliable Example.layout Example.leafLinks 3
    (by decide) true
  obtain ⟨r, w', hrun⟩ := hgoes _ _ (.refl _ _)
  exact ⟨r, w', hrun, hends r w' hrun⟩

/-- A path of unknown hash that cannot be archived is an error, though it is there and
nothing else is wrong. -/
theorem verifyStore_refuses_device :
    letI := Example.sha256
    ∃ r w', Prog.Ends (exec Example.env Example.config) Example.deviceWorld
        (verifyStore Example.config 2 true) r w' ∧ r = .ok true ∧
      (∀ row ∈ Example.deviceWorld.db.validPaths,
        Example.deviceWorld.fs.node (Example.config.toRealPath row.path) ≠ none ∧
        (row.hash = nullHash ∨ ∃ t,
          Example.deviceWorld.fs.Archives (Example.config.toRealPath row.path) t ∧
          row.hash = hashString t.nar)) ∧
      ∀ name ∈ Example.deviceWorld.fs.names Example.config.linksDir,
        WellNamed Example.config Example.deviceWorld.fs name := by
  let _ := Example.sha256
  have hspec : ∀ deep, (verifyStore Example.config 2 true).wp (exec Example.env Example.config) deep
      (Verdict Example.config true Example.deviceWorld) Example.deviceWorld := fun _ =>
    verifyStore_spec Example.reliable Example.deviceLayout
      (by simp [LeafLinks, Example.device_no_links]) 2 (by decide) true
  obtain ⟨r, w', hrun⟩ := (hspec False).total (exec_total Example.env Example.config)
  obtain ⟨errors, rfl, hverdict⟩ := ((hspec True).ends hrun).full rfl
  refine ⟨_, w', hrun, ?_, ?_, by simp [Example.device_no_links]⟩
  · have hbad : ¬ Consistent Example.config Example.deviceWorld := by
      intro hconsistent
      obtain ⟨t, ht, -⟩ := hconsistent.paths _ (List.mem_singleton_self _)
      have hlabel : some (Label.device .char) = some (treeLabel t) := ht.holds.root
      cases t <;> simp [treeLabel] at hlabel
    rw [← hverdict, Bool.not_eq_false] at hbad
    rw [hbad]
  · intro row hrow
    obtain rfl := List.mem_singleton.mp hrow
    exact ⟨by decide, Or.inl rfl⟩

end Store
end Archinix
