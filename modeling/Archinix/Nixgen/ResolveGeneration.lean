import Archinix.Nixgen.Files
import Archinix.Store.MakeStorePath
import Archinix.Store.StoreResolve
import Mathlib.Data.List.DropRight

/-!
# Resolving a generation without a database

In a store without a database beside it, `nixgen-switch` and `nixgen-diffid` look for a
generation with globs: the token as it is, then `*-token`, then `token*`.  `store-resolve`
asks the database for the base name, then for a hash part, then for a name.

`resolvers_agree_iff` says for which tokens the two come to one verdict.
-/

namespace Archinix
namespace Nixgen

open Foundation Util Host Store Store.Sqlite

/-- A tree with the names of its directories. -/
structure Directories extends Files where
  names : Path → List Name
  mem_names : ∀ x name, name ∈ names x ↔ node (x ++ [name]) ≠ none
  nodup_names : ∀ x, (names x).Nodup
  noSlash_names : ∀ x, ∀ name ∈ names x, (47 : UInt8) ∉ name

/-- What comes of a token: the path below the store directory, if there is one. -/
inductive Verdict where
  | found (path : Bytes)
  | notFound
  | ambiguous
  deriving DecidableEq

/-- Count the matches. -/
def Verdict.ofMatches : List Bytes → Verdict
  | [] => .notFound
  | [path] => .found path
  | _ => .ambiguous

namespace Directories

variable (F : Directories) (store : Path)

/-- `[ -d "$S/$path" ]`. -/
def Leads (path : Bytes) : Prop := (F.directoryAt (store ++ Files.components path)).isSome = true

instance (path : Bytes) : Decidable (F.Leads store path) := inferInstanceAs (Decidable (_ = _))

/-- The names in a directory below the store directory. -/
def entries (path : Bytes) : List Name :=
  match F.directoryAt (store ++ Files.components path) with
  | some dir => F.names dir
  | none => []

/-- A name that `*` stands for at the start of a pattern. -/
def visible (name : Name) : Bool := !(str ".").isPrefixOf name

/-- `"$S"/*-"$token"`, the directories among them.  What the token has behind a slash is
looked for as it is. -/
def suffixMatches (token : Bytes) : List Bytes :=
  let first := token.takeWhile (· ≠ 47)
  let rest := token.dropWhile (· ≠ 47)
  (((F.entries store []).filter fun name => visible name && (str "-" ++ first).isSuffixOf name).map
    (· ++ rest)).filter (F.Leads store ·)

/-- `"$S/$token"*`, the directories among them. -/
def prefixMatches (token : Bytes) : List Bytes :=
  let dir := token.rdropWhile (· ≠ 47)
  let last := token.rtakeWhile (· ≠ 47)
  (((F.entries store dir).filter fun name =>
    last.isPrefixOf name && (visible name || (str ".").isPrefixOf last)).map
      (dir ++ ·)).filter (F.Leads store ·)

/-- What `nixgen-switch` and `nixgen-diffid` do with a store directory that has no database. -/
def resolveIn (token : Bytes) : Verdict :=
  if F.Leads store token then .found token
  else if F.suffixMatches store token = [] then .ofMatches (F.prefixMatches store token)
  else .ofMatches (F.suffixMatches store token)

end Directories

/-- What `store-resolve` prints and its exit code say; an exception is no verdict. -/
def exitVerdict : Exit → Option Verdict
  | .resolved baseName => some (.found baseName)
  | .ambiguousId _ => some .ambiguous
  | .ambiguousName _ => some .ambiguous
  | .unmatched => some .notFound
  | .error => none

/-! ## When they agree -/

section Agreement

variable (t : Tables) (cfg : StoreDirConfig) (token : Bytes)

/-- A generation whose base name ends with a dash and the token. -/
def EndsWith (p : StorePath) : Prop := t.Registered cfg p ∧ str "-" ++ token <:+ p.baseName

/-- The registered generations are what the store directory has. -/
structure Present (F : Directories) (store : Path) : Prop where
  base : ∃ base, F.directoryAt store = some base ∧
    (∀ name, name ∈ F.names base ↔ ∃ p, t.Registered cfg p ∧ p.baseName = name) ∧
    ∀ name ∈ F.names base, F.IsDir (base ++ [name])
  /-- A generation is called `<hash>-<name>`. -/
  spelled : ∀ p, t.Registered cfg p → Spelled 45 p.baseName

/-- The tokens the globs and the database take for the same. -/
inductive Unequivocal (F : Directories) (store : Path) : Prop where
  | baseName {p : StorePath} (hp : t.Registered cfg p) (htoken : p.baseName = token)
  /-- No name is the token or ends with it, and it begins only hash parts. -/
  | byId (hplain : 47 ∉ token ∧ Files.Plain token) (hname : ∀ p, ¬ EndsWith t cfg token p)
      (hid : ∀ p, t.Registered cfg p → token <+: p.baseName → token <+: p.hashPart)
  /-- No hash part begins with the token, and names that end with it are the token, or it
  is the name of several generations. -/
  | byName (hplain : 47 ∉ token ∧ Files.Plain token) (hid : ∀ p, ¬ t.Hit cfg token p)
      {p : StorePath} (hp : t.Named cfg token p)
      (hname : (∀ q, EndsWith t cfg token q → t.Named cfg token q) ∨
        ∃ q, q ≠ p ∧ t.Named cfg token q)
  /-- One generation's name ends with the token, and only its hash part begins with it. -/
  | single (hplain : 47 ∉ token ∧ Files.Plain token) {p : StorePath}
      (hname : ∀ q, EndsWith t cfg token q ↔ q = p) (hid : ∀ q, t.Hit cfg token q ↔ q = p)
  | several (hplain : 47 ∉ token ∧ Files.Plain token)
      (hname : ∃ p q, p ≠ q ∧ EndsWith t cfg token p ∧ EndsWith t cfg token q)
      (hid : ∃ p q, p ≠ q ∧ t.Hit cfg token p ∧ t.Hit cfg token q)
  /-- A token with a slash that leads nowhere, nor with something before or after it. -/
  | nowhere (hslash : 47 ∈ token) (hthere : ¬ F.Leads store token)
      (hmore : ∀ w, 47 ∉ w → ¬ F.Leads store (w ++ str "-" ++ token) ∧ ¬ F.Leads store (token ++ w))

end Agreement

/-! ## Counting matches -/

/-- The verdict on the generations with a property. -/
inductive Picks (P : StorePath → Prop) : Verdict → Prop
  | none (h : ∀ p, ¬ P p) : Picks P .notFound
  | one {p : StorePath} (h : ∀ q, P q ↔ q = p) : Picks P (.found p.baseName)
  | several {p q : StorePath} (hne : p ≠ q) (hp : P p) (hq : P q) : Picks P .ambiguous

section Picks

variable {P Q : StorePath → Prop} {v w : Verdict}

theorem picks_ofMatches {l : List Bytes} (hnodup : l.Nodup)
    (hmem : ∀ m, m ∈ l ↔ ∃ p, P p ∧ p.baseName = m) : Picks P (.ofMatches l) := by
  rcases l with - | ⟨m, - | ⟨m', rest⟩⟩
  · exact .none fun p hp => by simpa using (hmem p.baseName).mpr ⟨p, hp, rfl⟩
  · obtain ⟨p, hp, rfl⟩ := (hmem m).mp (by simp)
    refine .one fun q => ⟨fun hq => ?_, fun heq => heq ▸ hp⟩
    exact StorePath.ext (by simpa using (hmem q.baseName).mpr ⟨q, hq, rfl⟩)
  · obtain ⟨p, hp, rfl⟩ := (hmem m).mp (by simp)
    obtain ⟨q, hq, rfl⟩ := (hmem m').mp (by simp)
    refine .several (p := p) (q := q) ?_ hp hq
    rintro rfl
    simp at hnodup

theorem Picks.notFound_iff (h : Picks P v) : v = .notFound ↔ ∀ p, ¬ P p := by
  cases h with
  | none h => exact iff_of_true rfl h
  | one h => exact iff_of_false (by simp) fun hnone => hnone _ ((h _).mpr rfl)
  | several _ hp _ => exact iff_of_false (by simp) fun hnone => hnone _ hp

theorem Picks.found_iff (h : Picks P v) {b : Bytes} :
    v = .found b ↔ ∃ p, p.baseName = b ∧ ∀ q, P q ↔ q = p := by
  cases h with
  | none h => exact iff_of_false (by simp) fun ⟨p, _, hp⟩ => h p ((hp p).mpr rfl)
  | @one p h =>
      constructor
      · intro heq
        cases heq
        exact ⟨p, rfl, h⟩
      · rintro ⟨p', rfl, hp'⟩
        rw [(hp' p).mp ((h p).mpr rfl)]
  | several hne hp hq =>
      exact iff_of_false (by simp) fun ⟨p', _, hp'⟩ =>
        hne (((hp' _).mp hp).trans ((hp' _).mp hq).symm)

theorem Picks.ambiguous_iff (h : Picks P v) : v = .ambiguous ↔ ∃ p q, p ≠ q ∧ P p ∧ P q := by
  cases h with
  | none h => exact iff_of_false (by simp) fun ⟨p, _, _, hp, _⟩ => h p hp
  | one h =>
      exact iff_of_false (by simp) fun ⟨p, q, hne, hp, hq⟩ =>
        hne (((h p).mp hp).trans ((h q).mp hq).symm)
  | several hne hp hq => exact iff_of_true rfl ⟨_, _, hne, hp, hq⟩

theorem Picks.unique (h : Picks P v) (h' : Picks P w) : v = w := by
  cases h with
  | none h => exact (h'.notFound_iff.mpr h).symm
  | one h => exact (h'.found_iff.mpr ⟨_, rfl, h⟩).symm
  | several hne hp hq => exact (h'.ambiguous_iff.mpr ⟨_, _, hne, hp, hq⟩).symm

/-- Two counts come to the same verdict. -/
theorem Picks.eq_iff (h : Picks P v) (h' : Picks Q w) :
    v = w ↔ ((∀ p, ¬ P p) ∧ ∀ p, ¬ Q p) ∨ (∃ p, (∀ q, P q ↔ q = p) ∧ ∀ q, Q q ↔ q = p) ∨
      (∃ p q, p ≠ q ∧ P p ∧ P q) ∧ ∃ p q, p ≠ q ∧ Q p ∧ Q q := by
  constructor
  · rintro rfl
    cases h' with
    | none hQ => exact Or.inl ⟨h.notFound_iff.mp rfl, hQ⟩
    | one hQ =>
        obtain ⟨p, hp, hP⟩ := h.found_iff.mp rfl
        obtain rfl := StorePath.ext hp
        exact Or.inr (Or.inl ⟨p, hP, hQ⟩)
    | several hne hp hq => exact Or.inr (Or.inr ⟨h.ambiguous_iff.mp rfl, _, _, hne, hp, hq⟩)
  · rintro (⟨hP, hQ⟩ | ⟨p, hP, hQ⟩ | ⟨hP, hQ⟩)
    · rw [h.notFound_iff.mpr hP, h'.notFound_iff.mpr hQ]
    · rw [h.found_iff.mpr ⟨p, rfl, hP⟩, h'.found_iff.mpr ⟨p, rfl, hQ⟩]
    · rw [h.ambiguous_iff.mpr hP, h'.ambiguous_iff.mpr hQ]

end Picks

/-! ## What the database says -/

section Database

variable {t : Tables} {cfg : StoreDirConfig} {token : Bytes} {exit : Exit}

theorem exists_verdict (h : Reports cfg t token exit) : ∃ v, exitVerdict exit = some v := by
  cases exit with
  | resolved baseName => exact ⟨_, rfl⟩
  | ambiguousId baseNames => exact ⟨_, rfl⟩
  | ambiguousName baseNames => exact ⟨_, rfl⟩
  | unmatched => exact ⟨_, rfl⟩
  | error =>
      have hunique : ∀ {P : StorePath → Prop}, (¬ ∃ p q, p ≠ q ∧ P p ∧ P q) →
          (∀ p, ¬ ∀ q, P q ↔ q = p) → ∀ p, ¬ P p := by
        intro P hseveral hone p hp
        refine hone p fun q => ⟨fun hq => ?_, fun heq => heq ▸ hp⟩
        by_contra hne
        exact hseveral ⟨q, p, hne, hq, hp⟩
      have hresolved := fun b => mt (h.resolved b).mpr (by simp)
      have hnohit : ∀ q, ¬ t.Hit cfg token q :=
        hunique (mt h.ambiguous.mpr (by simp)) fun p hp => hresolved _ (Or.inl ⟨p, rfl, hp⟩)
      have hnoname : ∀ q, ¬ t.Named cfg token q :=
        hunique (fun hname => mt h.ambiguousName.mpr (by simp) ⟨hnohit, hname⟩)
          fun p hp => hresolved _ (Or.inr ⟨hnohit, p, rfl, hp⟩)
      have hunmatched := h.unmatched.mpr ⟨hnohit, hnoname⟩
      cases hunmatched

/-- Ids come before names. -/
theorem picks_of_reports (h : Reports cfg t token exit) {v : Verdict}
    (hv : exitVerdict exit = some v) :
    ((∃ p, t.Hit cfg token p) → Picks (t.Hit cfg token) v) ∧
      ((∀ p, ¬ t.Hit cfg token p) → Picks (t.Named cfg token) v) := by
  cases exit with
  | resolved baseName =>
      cases hv
      rcases (h.resolved baseName).mp rfl with ⟨p, rfl, hp⟩ | ⟨hnone, p, rfl, hp⟩
      · exact ⟨fun _ => .one hp, fun hnone => absurd ((hp p).mpr rfl) (hnone p)⟩
      · exact ⟨fun ⟨q, hq⟩ => absurd hq (hnone q), fun _ => .one hp⟩
  | ambiguousId baseNames =>
      cases hv
      obtain ⟨p, q, hne, hp, hq⟩ := h.ambiguous.mp ⟨baseNames, rfl⟩
      exact ⟨fun _ => .several hne hp hq, fun hnone => absurd hp (hnone p)⟩
  | ambiguousName baseNames =>
      cases hv
      obtain ⟨hnone, p, q, hne, hp, hq⟩ := h.ambiguousName.mp ⟨baseNames, rfl⟩
      exact ⟨fun ⟨q, hq⟩ => absurd hq (hnone q), fun _ => .several hne hp hq⟩
  | unmatched =>
      cases hv
      obtain ⟨hnohit, hnoname⟩ := h.unmatched.mp rfl
      exact ⟨fun ⟨q, hq⟩ => absurd hq (hnohit q), fun _ => .none hnoname⟩
  | error => cases hv

end Database

/-! ## What the globs match -/

section Globs

variable {F : Directories} {store base : Path} {t : Tables} {cfg : StoreDirConfig}
  {token m : Bytes}

theorem nodup_entries (path : Bytes) : (F.entries store path).Nodup := by
  unfold Directories.entries
  split
  · exact F.nodup_names _
  · exact List.nodup_nil

theorem nodup_suffixMatches : (F.suffixMatches store token).Nodup :=
  (((nodup_entries []).filter _).map fun _ _ h => List.append_cancel_right h).filter _

theorem nodup_prefixMatches : (F.prefixMatches store token).Nodup :=
  (((nodup_entries _).filter _).map fun _ _ h => List.append_cancel_left h).filter _

theorem components_plain (hne : m ≠ []) (hslash : 47 ∉ m) : Files.components m = [m] := by
  rw [Files.components, List.splitOn_eq_singleton hslash]
  simp [hne]

theorem entries_nil (hbase : F.directoryAt store = some base) : F.entries store [] = F.names base := by
  have hnil : Files.components [] = [] := rfl
  rw [Directories.entries, hnil, List.append_nil, hbase]

theorem plain_baseName (p : StorePath) : Files.Plain p.baseName := by
  have hlen := p.baseName_length
  constructor <;> rintro heq <;> rw [heq] at hlen <;> revert hlen <;> decide

theorem visible_baseName (p : StorePath) : Directories.visible p.baseName = true := by
  obtain ⟨c, rest, heq, hc⟩ := p.isHashChar_head
  have hdot : c ≠ 46 := by
    rintro rfl
    revert hc
    decide
  rw [heq]
  simpa [Directories.visible, str, List.isPrefixOf] using Ne.symm hdot

/-- A generation's name is a directory of the store, and no other name is. -/
theorem leads_iff (h : Present t cfg F store) (hne : m ≠ []) (hslash : 47 ∉ m)
    (hplain : Files.Plain m) :
    F.Leads store m ↔ ∃ p, t.Registered cfg p ∧ p.baseName = m := by
  obtain ⟨base, hbase, hnames, hdirs⟩ := h.base
  obtain ⟨k, hk⟩ := F.directoryAt_append store
  rw [Directories.Leads, components_plain hne hslash, hk, hbase, Option.bind_some, ← hnames]
  constructor
  · intro hwalk
    obtain ⟨t, ht⟩ := Option.isSome_iff_exists.mp hwalk
    exact (F.mem_names _ _).mpr (Files.node_of_walk hplain ht)
  · intro hmem
    rw [Files.walk_isDir (by simpa using hplain) (hdirs m hmem)]
    rfl

theorem leads_baseName (h : Present t cfg F store) {p : StorePath} (hp : t.Registered cfg p) :
    F.Leads store p.baseName := by
  have hlen := p.baseName_length
  refine (leads_iff h ?_ p.noSlash (plain_baseName p)).mpr ⟨p, hp, rfl⟩
  rintro heq
  rw [heq] at hlen
  simp at hlen

theorem no_slash (hslash : 47 ∉ token) : ∀ c ∈ token, decide (c ≠ 47) = true := fun _ hc =>
  decide_eq_true fun heq => hslash (heq ▸ hc)

theorem mem_suffixMatches (h : Present t cfg F store) (hslash : 47 ∉ token) :
    m ∈ F.suffixMatches store token ↔ ∃ p, EndsWith t cfg token p ∧ p.baseName = m := by
  obtain ⟨base, hbase, hnames, -⟩ := h.base
  have hfirst := List.takeWhile_eq_self_iff.mpr (no_slash hslash)
  have hrest := List.dropWhile_eq_nil_iff.mpr (no_slash hslash)
  simp only [Directories.suffixMatches, hfirst, hrest, List.append_nil, List.map_id', List.mem_filter,
    entries_nil hbase, hnames, Bool.and_eq_true, List.isSuffixOf_iff_suffix, decide_eq_true_eq]
  constructor
  · rintro ⟨⟨⟨p, hp, rfl⟩, -, hback⟩, -⟩
    exact ⟨p, ⟨hp, hback⟩, rfl⟩
  · rintro ⟨p, ⟨hp, hback⟩, rfl⟩
    exact ⟨⟨⟨p, hp, rfl⟩, visible_baseName p, hback⟩, leads_baseName h hp⟩

theorem mem_prefixMatches (h : Present t cfg F store) (hslash : 47 ∉ token) :
    m ∈ F.prefixMatches store token ↔
      ∃ p, (t.Registered cfg p ∧ token <+: p.baseName) ∧ p.baseName = m := by
  obtain ⟨base, hbase, hnames, -⟩ := h.base
  have hlast := List.rtakeWhile_eq_self_iff.mpr (no_slash hslash)
  have hdir := List.rdropWhile_eq_nil_iff.mpr (no_slash hslash)
  simp only [Directories.prefixMatches, hlast, hdir, List.nil_append, List.map_id', List.mem_filter,
    entries_nil hbase, hnames, Bool.and_eq_true, List.isPrefixOf_iff_prefix, decide_eq_true_eq]
  constructor
  · rintro ⟨⟨⟨p, hp, rfl⟩, hfront, -⟩, -⟩
    exact ⟨p, ⟨hp, hfront⟩, rfl⟩
  · rintro ⟨p, ⟨hp, hfront⟩, rfl⟩
    exact ⟨⟨⟨p, hp, rfl⟩, hfront, by rw [visible_baseName]; rfl⟩, leads_baseName h hp⟩

/-- Without a slash, tails are looked for first, and then beginnings. -/
theorem picks_resolveIn (h : Present t cfg F store) (hne : token ≠ [])
    (hplain : 47 ∉ token ∧ Files.Plain token)
    (hno : ¬ ∃ p, t.Registered cfg p ∧ p.baseName = token) :
    ((∃ p, EndsWith t cfg token p) → Picks (EndsWith t cfg token) (F.resolveIn store token)) ∧
      ((∀ p, ¬ EndsWith t cfg token p) →
        Picks (fun p => t.Registered cfg p ∧ token <+: p.baseName) (F.resolveIn store token)) := by
  rw [Directories.resolveIn, if_neg (mt (leads_iff h hne hplain.1 hplain.2).mp hno)]
  constructor
  · rintro ⟨p, hp⟩
    have hmem := (mem_suffixMatches h hplain.1).mpr ⟨p, hp, rfl⟩
    rw [if_neg (List.ne_nil_of_mem hmem)]
    exact picks_ofMatches nodup_suffixMatches fun m => mem_suffixMatches h hplain.1
  · intro hnone
    rw [if_pos]
    · exact picks_ofMatches nodup_prefixMatches fun m => mem_prefixMatches h hplain.1
    · refine List.eq_nil_iff_forall_not_mem.mpr fun m hm => ?_
      obtain ⟨p, hp, -⟩ := (mem_suffixMatches h hplain.1).mp hm
      exact hnone p hp

theorem ofMatches_eq_notFound {l : List Bytes} : Verdict.ofMatches l = .notFound ↔ l = [] := by
  rcases l with - | ⟨m, - | ⟨m', rest⟩⟩ <;> simp [Verdict.ofMatches]

theorem components_append (a b : Bytes) :
    Files.components (a ++ 47 :: b) = Files.components a ++ Files.components b := by
  rw [Files.components, List.splitOn_append_cons_self, List.filter_append]
  rfl

/-- `*-token` matches what leads somewhere with something before the token. -/
theorem suffixMatches_slash (h : Present t cfg F store) (hslash : 47 ∈ token) :
    F.suffixMatches store token = [] ↔ ∀ w, 47 ∉ w → ¬ F.Leads store (w ++ str "-" ++ token) := by
  obtain ⟨base, hbase, hnames, -⟩ := h.base
  obtain ⟨first, r, rfl, hfirst⟩ := List.eq_append_cons_of_mem hslash
  have htake : (first ++ 47 :: r).takeWhile (· ≠ 47) = first := by
    rw [List.takeWhile_append_of_pos (no_slash hfirst), List.takeWhile_cons_of_neg (by simp),
      List.append_nil]
  have hdrop : (first ++ 47 :: r).dropWhile (· ≠ 47) = 47 :: r := by
    rw [List.dropWhile_append_of_pos (no_slash hfirst), List.dropWhile_cons_of_neg (by simp)]
  rw [List.eq_nil_iff_forall_not_mem]
  simp only [Directories.suffixMatches, htake, hdrop, entries_nil hbase, List.mem_filter, List.mem_map,
    Bool.and_eq_true, List.isSuffixOf_iff_suffix, decide_eq_true_eq]
  constructor
  · intro hnone w hw hleads
    -- its first component is a name of the store directory
    have hin : 47 ∉ w ++ str "-" ++ first := by
      simp only [List.mem_append, not_or]
      exact ⟨⟨hw, by decide⟩, hfirst⟩
    have hdash : (45 : UInt8) ∈ w ++ str "-" ++ first := by simp [str]
    have hplain : Files.Plain (w ++ str "-" ++ first) := by
      constructor <;> rintro heq <;> rw [heq] at hdash <;> revert hdash <;> decide
    have hmem : w ++ str "-" ++ first ∈ F.names base := by
      obtain ⟨k, hk⟩ := F.directoryAt_append store
      obtain ⟨d, hd⟩ := Option.isSome_iff_exists.mp hleads
      rw [← List.append_assoc (w ++ str "-"), components_append,
        components_plain (List.ne_nil_of_mem hdash) hin, hk, hbase] at hd
      exact (F.mem_names _ _).mpr (Files.node_of_walk hplain hd)
    obtain ⟨p, hp, hbaseName⟩ := (hnames _).mp hmem
    refine hnone _ ⟨⟨w ++ str "-" ++ first, ⟨hmem, ?_, ?_⟩, rfl⟩, ?_⟩
    · rw [← hbaseName]
      exact visible_baseName p
    · rw [List.append_assoc]
      exact List.suffix_append _ _
    · rwa [List.append_assoc (w ++ str "-")]
  · rintro hnone m ⟨⟨name, ⟨hname, -, w, rfl⟩, rfl⟩, hleads⟩
    refine hnone w (fun hw => F.noSlash_names _ _ hname (by simp [hw])) ?_
    simpa using hleads

/-- The last slash of a token. -/
theorem exists_last_slash (hslash : 47 ∈ token) : ∃ front last, 47 ∉ last ∧
    token = front ++ 47 :: last ∧ token.rdropWhile (· ≠ 47) = front ++ [47] ∧
    token.rtakeWhile (· ≠ 47) = last := by
  have hne : token.rdropWhile (· ≠ 47) ≠ [] := fun hnil => by
    simpa using List.rdropWhile_eq_nil_iff.mp hnil 47 hslash
  have hend := List.rdropWhile_last_not _ _ hne
  obtain ⟨front, c, hfront⟩ := (List.eq_nil_or_concat' _).resolve_left hne
  simp only [hfront, List.getLast_append_singleton, decide_eq_true_eq, not_not] at hend
  subst hend
  refine ⟨front, _, fun hmem => ?_, ?_, hfront, rfl⟩
  · simpa using List.mem_rtakeWhile_imp hmem
  · have hsplit := List.rdropWhile_append_rtakeWhile (p := (· ≠ 47)) (l := token)
    rw [hfront, List.append_assoc] at hsplit
    exact hsplit.symm

theorem isSome_walk_dots {k : Nat} {d : Path} {last : Bytes}
    (h : last = [] ∨ last = str "." ∨ last = str "..") :
    (F.walk k d (Files.components last)).isSome = true := by
  rcases h with rfl | rfl | rfl
  · cases k <;> rfl
  · rw [show Files.components (str ".") = [str "."] from rfl]
    cases k <;> rfl
  · rw [show Files.components (str "..") = [str ".."] from rfl]
    cases k <;> rfl

/-- `token*` matches what leads somewhere with something behind the token. -/
theorem prefixMatches_slash (hslash : 47 ∈ token) (hthere : ¬ F.Leads store token) :
    F.prefixMatches store token = [] ↔ ∀ w, 47 ∉ w → ¬ F.Leads store (token ++ w) := by
  obtain ⟨front, last, hlast, rfl, hdrop, htake⟩ := exists_last_slash hslash
  have hdir : Files.components (front ++ [47]) = Files.components front := by
    rw [components_append]
    exact List.append_nil _
  rw [List.eq_nil_iff_forall_not_mem]
  simp only [Directories.prefixMatches, hdrop, htake, Directories.entries, hdir, List.mem_filter,
    List.mem_map, Bool.and_eq_true, List.isPrefixOf_iff_prefix, decide_eq_true_eq]
  constructor
  · intro hnone w hw hleads
    obtain ⟨k, hk⟩ := F.directoryAt_append (store ++ Files.components front)
    have hcomponents : ∀ x, store ++ Files.components (front ++ 47 :: x) =
        store ++ Files.components front ++ Files.components x := fun x => by
      rw [components_append, List.append_assoc]
    rw [Directories.Leads, List.append_assoc, List.cons_append, hcomponents, hk] at hleads
    rw [Directories.Leads, hcomponents, hk] at hthere
    cases hd : F.directoryAt (store ++ Files.components front) with
    | none =>
        rw [hd] at hleads
        cases hleads
    | some d =>
        rw [hd, Option.bind_some] at hleads hthere
        -- without anything behind the last slash, the token itself leads there
        have hlast' : last ≠ [] := by
          rintro rfl
          exact hthere (isSome_walk_dots (Or.inl rfl))
        have hx : last ++ w ≠ [] := by simp [hlast']
        have hin : 47 ∉ last ++ w := by simp [hlast, hw]
        by_cases hplain : Files.Plain (last ++ w)
        · rw [components_plain hx hin] at hleads
          obtain ⟨t, ht⟩ := Option.isSome_iff_exists.mp hleads
          refine hnone (front ++ [47] ++ (last ++ w)) ⟨⟨last ++ w, ⟨?_, List.prefix_append _ _, ?_⟩, rfl⟩, ?_⟩
          · rw [hd]
            exact (F.mem_names _ _).mpr (Files.node_of_walk hplain ht)
          · obtain ⟨c, rest, rfl⟩ := List.exists_cons_of_ne_nil hlast'
            by_cases hc : c = 46 <;> simp [Directories.visible, str, List.isPrefixOf, hc]
          · rw [Directories.Leads, List.append_assoc, List.singleton_append, hcomponents, hk, hd,
              components_plain hx hin]
            exact hleads
        · refine hthere (isSome_walk_dots ?_)
          have hdots : last ++ w = str "." ∨ last ++ w = str ".." := by
            rw [Files.Plain, not_and_or, not_not, not_not] at hplain
            exact hplain
          have hfront : last <+: str ".." := by
            rcases hdots with heq | heq
            · exact (List.prefix_append last w).trans (heq ▸ by decide)
            · exact heq ▸ List.prefix_append last w
          have hinits := (List.mem_inits _ _).mpr hfront
          rw [show (str "..").inits = [[], str ".", str ".."] from rfl] at hinits
          simpa using hinits
  · rintro hnone m ⟨⟨name, ⟨hname, ⟨w, rfl⟩, -⟩, rfl⟩, hleads⟩
    refine hnone w (fun hw => ?_) (by simpa using hleads)
    split at hname
    · exact F.noSlash_names _ _ hname (by simp [hw])
    · cases hname

/-- A token with a slash matches a directory that has it for its path, or for the end or
the beginning of it. -/
theorem resolveIn_slash (h : Present t cfg F store) (hslash : 47 ∈ token) :
    F.resolveIn store token = .notFound ↔ ¬ F.Leads store token ∧
      ∀ w, 47 ∉ w → ¬ F.Leads store (w ++ str "-" ++ token) ∧ ¬ F.Leads store (token ++ w) := by
  rw [Directories.resolveIn]
  by_cases hthere : F.Leads store token
  · rw [if_pos hthere]
    exact iff_of_false (by simp) fun hnone => hnone.1 hthere
  · have hback := suffixMatches_slash h hslash
    have hfront := prefixMatches_slash hslash hthere
    rw [if_neg hthere]
    by_cases hnone : F.suffixMatches store token = []
    · rw [if_pos hnone, ofMatches_eq_notFound, hfront]
      exact ⟨fun hmore => ⟨hthere, fun w hw => ⟨hback.mp hnone w hw, hmore w hw⟩⟩,
        fun hmore w hw => (hmore.2 w hw).2⟩
    · rw [if_neg hnone, ofMatches_eq_notFound]
      exact iff_of_false hnone fun hmore => hnone (hback.mpr fun w hw => (hmore.2 w hw).1)

end Globs

section Agree

variable {F : Directories} {store : Path} {t : Tables} {cfg : StoreDirConfig} {token : Bytes}
  {exit : Exit}

/-- The same without a slash. -/
theorem agree_plain (h : Present t cfg F store) (hne : token ≠ [])
    (hplain : 47 ∉ token ∧ Files.Plain token)
    (hno : ¬ ∃ p, t.Registered cfg p ∧ p.baseName = token) (hreports : Reports cfg t token exit)
    {v : Verdict} (hv : exitVerdict exit = some v) :
    v = F.resolveIn store token ↔ Unequivocal t cfg token F store := by
  obtain ⟨hhit, hnohit⟩ := picks_of_reports hreports hv
  obtain ⟨htail, hnotail⟩ := picks_resolveIn h hne hplain hno
  have hnamed : ∀ p, t.Named cfg token p → EndsWith t cfg token p := by
    rintro p ⟨hp, rfl⟩
    obtain ⟨hash, name, heq, hlen, -⟩ := h.spelled p hp
    have hname : p.name = name := by
      rw [StorePath.name, heq, ← hlen, List.drop_append]
      simp
    rw [hname, EndsWith, heq]
    exact ⟨hp, List.suffix_append hash _⟩
  have hslash := hplain.1
  by_cases hsome : ∃ p, EndsWith t cfg token p <;> by_cases hid : ∃ p, t.Hit cfg token p
  · -- tails and ids
    rw [(hhit hid).eq_iff (htail hsome)]
    constructor
    · rintro (⟨hnone, -⟩ | ⟨p, hp, hname⟩ | ⟨hids, hnames⟩)
      · exact absurd hid (not_exists.mpr hnone)
      · exact .single hplain hname hp
      · exact .several hplain hnames hids
    · intro hu
      cases hu with
      | baseName hp htoken => exact absurd ⟨_, hp, htoken⟩ hno
      | byId _ hname _ => exact absurd hsome (not_exists.mpr hname)
      | byName _ hnone _ _ => exact absurd hid (not_exists.mpr hnone)
      | single _ hname hp => exact Or.inr (Or.inl ⟨_, hp, hname⟩)
      | several _ hnames hids => exact Or.inr (Or.inr ⟨hids, hnames⟩)
      | nowhere hin _ _ => exact absurd hin hslash
  · -- tails and no ids: names are among the tails
    rw [(hnohit (not_exists.mp hid)).eq_iff (htail hsome)]
    constructor
    · rintro (⟨-, hnone⟩ | ⟨p, hp, hname⟩ | ⟨⟨p, q, hne, hp, hq⟩, -⟩)
      · exact absurd hsome (not_exists.mpr hnone)
      · exact .byName hplain (not_exists.mp hid) ((hp p).mpr rfl)
          (Or.inl fun q hq => (hp q).mpr ((hname q).mp hq))
      · exact .byName hplain (not_exists.mp hid) hp (Or.inr ⟨q, hne.symm, hq⟩)
    · intro hu
      cases hu with
      | baseName hp htoken => exact absurd ⟨_, hp, htoken⟩ hno
      | byId _ hname _ => exact absurd hsome (not_exists.mpr hname)
      | @byName _ _ p hp hname =>
          by_cases hmore : ∃ q, q ≠ p ∧ t.Named cfg token q
          · obtain ⟨q, hne, hq⟩ := hmore
            exact Or.inr (Or.inr ⟨⟨q, p, hne, hq, hp⟩, q, p, hne, hnamed q hq, hnamed p hp⟩)
          · have hall := hname.resolve_right hmore
            have hone : ∀ q, t.Named cfg token q ↔ q = p := fun q =>
              ⟨fun hq => by_contra fun hne => hmore ⟨q, hne, hq⟩, fun heq => heq ▸ hp⟩
            exact Or.inr (Or.inl ⟨p, hone, fun q =>
              ⟨fun hq => (hone q).mp (hall q hq), fun heq => heq ▸ hnamed p hp⟩⟩)
      | single _ _ hp => exact absurd ⟨_, (hp _).mpr rfl⟩ hid
      | several _ _ hids =>
          obtain ⟨p, q, -, hp, -⟩ := hids
          exact absurd ⟨p, hp⟩ hid
      | nowhere hin _ _ => exact absurd hin hslash
  · -- ids and no tails: the token is short, so what begins with it does so in its hash part
    have hshort : token.length ≤ HashLen := by
      obtain ⟨p, -, hp⟩ := hid
      have hle := hp.length_le
      rw [StorePath.hashPart, List.length_take] at hle
      omega
    have hsame : (fun p => t.Registered cfg p ∧ token <+: p.baseName) = t.Hit cfg token :=
      funext fun p => propext (and_congr_right fun _ =>
        ⟨fun hp => List.prefix_take_iff.mpr ⟨hp, hshort⟩, fun hp => hp.trans (List.take_prefix _ _)⟩)
    refine iff_of_true ((hhit hid).unique (hsame ▸ hnotail (not_exists.mp hsome))) ?_
    exact .byId hplain (not_exists.mp hsome) fun p _ hp => List.prefix_take_iff.mpr ⟨hp, hshort⟩
  · -- neither
    rw [(hnohit (not_exists.mp hid)).eq_iff (hnotail (not_exists.mp hsome))]
    constructor
    · rintro (⟨-, hnone⟩ | ⟨p, hp, -⟩ | ⟨⟨p, q, -, hp, -⟩, -⟩)
      · exact .byId hplain (not_exists.mp hsome) fun p hp hfront => absurd ⟨hp, hfront⟩ (hnone p)
      · exact absurd ⟨p, hnamed p ((hp p).mpr rfl)⟩ hsome
      · exact absurd ⟨p, hnamed p hp⟩ hsome
    · intro hu
      cases hu with
      | baseName hp htoken => exact absurd ⟨_, hp, htoken⟩ hno
      | byId _ _ hfront =>
          refine Or.inl ⟨fun p hp => hsome ⟨p, hnamed p hp⟩, ?_⟩
          rintro p ⟨hp, hbegin⟩
          exact hid ⟨p, hp, hfront p hp hbegin⟩
      | byName _ _ hp _ => exact absurd ⟨_, hnamed _ hp⟩ hsome
      | single _ hname _ => exact absurd ⟨_, (hname _).mpr rfl⟩ hsome
      | several _ hnames _ =>
          obtain ⟨p, q, -, hp, -⟩ := hnames
          exact absurd ⟨p, hp⟩ hsome
      | nowhere hin _ _ => exact absurd hin hslash

/-- The two verdicts. -/
theorem agree_iff (h : Present t cfg F store) (hne : token ≠ [])
    (hexact : (∃ p, t.Registered cfg p ∧ p.baseName = token) → exit = .resolved token)
    (hother : (¬ ∃ p, t.Registered cfg p ∧ p.baseName = token) → Reports cfg t token exit) :
    (∃ v, exitVerdict exit = some v) ∧
      (exitVerdict exit = some (F.resolveIn store token) ↔ Unequivocal t cfg token F store) := by
  by_cases hbase : ∃ p, t.Registered cfg p ∧ p.baseName = token
  · rw [hexact hbase]
    obtain ⟨p, hp, rfl⟩ := hbase
    rw [Directories.resolveIn, if_pos (leads_baseName h hp)]
    exact ⟨⟨_, rfl⟩, iff_of_true rfl (.baseName hp rfl)⟩
  · have hreports := hother hbase
    obtain ⟨v, hv⟩ := exists_verdict hreports
    refine ⟨⟨v, hv⟩, ?_⟩
    rw [hv, Option.some.injEq]
    obtain ⟨hhit, hnohit⟩ := picks_of_reports hreports hv
    by_cases hslash : 47 ∈ token
    · -- no base name has a slash
      have hunmatched := hreports.unmatched.mpr ⟨fun q hq =>
          q.noSlash (List.mem_of_mem_take (hq.2.subset hslash)),
        fun q hq => q.noSlash (List.mem_of_mem_drop (hq.2 ▸ hslash))⟩
      have hv' : v = .notFound := by
        rw [hunmatched] at hv
        exact (Option.some.inj hv).symm
      rw [hv', eq_comm, resolveIn_slash h hslash]
      constructor
      · exact fun hnone => .nowhere hslash hnone.1 hnone.2
      · intro hu
        cases hu with
        | baseName hp htoken => exact absurd ⟨_, hp, htoken⟩ hbase
        | byId hplain _ _ => exact absurd hslash hplain.1
        | byName hplain _ _ _ => exact absurd hslash hplain.1
        | single hplain _ _ => exact absurd hslash hplain.1
        | several hplain _ _ => exact absurd hslash hplain.1
        | nowhere _ hthere hmore => exact ⟨hthere, hmore⟩
    · by_cases hplain : Files.Plain token
      · exact agree_plain h hne ⟨hslash, hplain⟩ hbase hreports hv
      · -- `.` and `..` are directories, and no base names
        have hthere : F.Leads store token := by
          obtain ⟨base, hbase, -⟩ := h.base
          obtain ⟨k, hk⟩ := F.directoryAt_append store
          rw [Files.Plain, not_and_or, not_not, not_not] at hplain
          rw [Directories.Leads, hk, hbase]
          exact isSome_walk_dots (Or.inr hplain)
        rw [Directories.resolveIn, if_pos hthere]
        refine iff_of_false ?_ fun hu => ?_
        · rintro rfl
          by_cases hid : ∃ p, t.Hit cfg token p
          · obtain ⟨p, hp, hone⟩ := (hhit hid).found_iff.mp rfl
            exact hbase ⟨p, ((hone p).mpr rfl).1, hp⟩
          · obtain ⟨p, hp, hone⟩ := (hnohit (not_exists.mp hid)).found_iff.mp rfl
            exact hbase ⟨p, ((hone p).mpr rfl).1, hp⟩
        · cases hu with
          | baseName hp htoken => exact hbase ⟨_, hp, htoken⟩
          | byId hplain' _ _ => exact hplain hplain'.2
          | byName hplain' _ _ _ => exact hplain hplain'.2
          | single hplain' _ _ => exact hplain hplain'.2
          | several hplain' _ _ => exact hplain hplain'.2
          | nowhere hin _ _ => exact hslash hin

end Agree

section Example

/-- The tree with the given nodes, and the names in its directories. -/
def Directories.ofNodes (nodes : List (Path × FileNode)) (h : Files.WellFormed nodes = true)
    (hslash : ∀ e ∈ nodes, ∀ name ∈ e.1, (47 : UInt8) ∉ name) : Directories where
  toFiles := Files.ofNodes nodes h
  names x := (nodes.filterMap fun e =>
    if parentDir e.1 = x then e.1.getLast? else none).dedup
  mem_names x name := by
    have hnode : (Files.ofNodes nodes h).node (x ++ [name]) = nodes.lookup (x ++ [name]) :=
      if_neg (by simp)
    rw [List.mem_dedup, List.mem_filterMap, hnode, ← Option.isSome_iff_ne_none,
      List.lookup_isSome_iff]
    constructor
    · rintro ⟨e, he, hlast⟩
      split_ifs at hlast with hparent
      refine ⟨e, he, ?_⟩
      rw [← hparent, parentDir, List.dropLast_append_getLast? name hlast]
      exact beq_self_eq_true _
    · rintro ⟨e, he, heq⟩
      have heq := eq_of_beq heq
      exact ⟨e, he, by rw [← heq]; simp⟩
  nodup_names x := List.nodup_dedup _
  noSlash_names x name hmem := by
    rw [List.mem_dedup, List.mem_filterMap] at hmem
    obtain ⟨e, he, hlast⟩ := hmem
    split_ifs at hlast
    exact hslash e he name (List.mem_of_getLast? hlast)

def nixstore : Path := [str "nixstore"]

/-- A store directory with the two registered paths. -/
def twoGenerations : Directories :=
  .ofNodes [(nixstore, Files.newDirectory),
    (nixstore ++ [Example.used.baseName], Files.newDirectory),
    (nixstore ++ [Example.user.baseName], Files.newDirectory)] (by decide +kernel) (by decide +kernel)

theorem twoGenerations_present :
    Present Example.connection.tables Example.cfg twoGenerations nixstore where
  base := by
    have hnames : twoGenerations.names nixstore = [Example.used.baseName, Example.user.baseName] := by
      decide +kernel
    refine ⟨nixstore, by decide +kernel, fun name => ?_, ?_⟩
    · rw [hnames, List.mem_cons, List.mem_singleton]
      constructor
      · rintro (rfl | rfl)
        · exact ⟨Example.used, show _ ∈ _ by decide, rfl⟩
        · exact ⟨Example.user, show _ ∈ _ by decide, rfl⟩
      · rintro ⟨p, hp, rfl⟩
        rcases Example.registered_cases hp with rfl | rfl
        · exact Or.inl rfl
        · exact Or.inr rfl
    · rw [hnames]
      decide +kernel
  spelled p hp := by
    rcases Example.registered_cases hp with rfl | rfl
    · exact ⟨str "00000000000000000000000000000000", str "a", by decide, by decide, by decide +kernel,
        by decide⟩
    · exact ⟨str "00000000000000000000000000000001", str "b", by decide, by decide, by decide +kernel,
        by decide⟩

end Example

end Nixgen
end Archinix
