import Archinix.Util.FileTree
import Archinix.Util.Serialise

/-!
# Store paths

`StorePath` of `path.cc` and the operations of `StoreDirConfig` that turn store
paths into file names and back, with the lexical path functions they use.  A
`StorePath` carries the proof that its name passed the checks, so no store path
with a malformed name exists.

The main result is `toStorePath_printStorePath`: the printed form of a store
path, alone or with anything below it, splits into that store path.
-/

namespace Archinix
namespace Store

open Util

/-! ## Lexical paths -/

/-- The stretches of a path between its slashes. -/
def splitSlash : Bytes → List Name
  | [] => [[]]
  | c :: rest =>
      if c = 47 then [] :: splitSlash rest
      else
        match splitSlash rest with
        | [] => [[c]]
        | name :: names => (c :: name) :: names

/-- `std::filesystem::path` iteration past the root directory: repeated slashes
are one separator, a trailing one leaves an empty last component. -/
def components (path : Bytes) : List Name :=
  let names := splitSlash path
  let proper := names.filter (· ≠ [])
  if proper ≠ [] ∧ names.getLast? = some [] then proper ++ [[]] else proper

def isAbsolute (path : Bytes) : Bool := path.head? = some 47

/-- What is left of two lists past their longest common prefix: `std::mismatch`. -/
def mismatch : List Name → List Name → List Name × List Name
  | a :: as, b :: bs => if a = b then mismatch as bs else (a :: as, b :: bs)
  | as, bs => (as, bs)

/-- `std::filesystem::path::lexically_relative`, by components; the empty path
has none. -/
def lexicallyRelative (path base : Bytes) : List Name :=
  if isAbsolute path ≠ isAbsolute base then []
  else
    let (a, b) := mismatch (components path) (components base)
    if a = [] ∧ b = [] then [str "."]
    else
      let ups := b.count (str "..")
      let names := (b.filter fun c => c ≠ [] ∧ c ≠ str "." ∧ c ≠ str "..").length
      if names < ups then []
      else if names = ups ∧ (a = [] ∨ a.head? = some []) then [str "."]
      else List.replicate (names - ups) (str "..") ++ a

def isInDir (path dir : Bytes) : Bool :=
  match lexicallyRelative path dir with
  | [] => false
  | first :: _ => first ≠ str "." ∧ first ≠ str ".."

/-- One component of `canonPathInner`: `.` and empty components go, `..` takes
the last component with it. -/
def canonStep (result : CanonPath) (comp : Name) : CanonPath :=
  if comp = [] ∨ comp = str "." then result
  else if comp = str ".." then result.dropLast
  else result ++ [comp]

/-- `canonPath(path)` without resolving symlinks, by components. -/
def canonPath (path : Bytes) : CanonPath := (splitSlash path).foldl canonStep []

theorem not_mem_splitSlash (path : Bytes) : ∀ name ∈ splitSlash path, (47 : UInt8) ∉ name := by
  induction path with
  | nil => simp [splitSlash]
  | cons c rest ih =>
      by_cases hc : c = 47
      · simpa [splitSlash, hc] using ih
      · rcases hrest : splitSlash rest with - | ⟨name, names⟩
        · simp [splitSlash, hc, hrest, Ne.symm hc]
        · rw [hrest] at ih
          simp only [splitSlash, hc, if_false, hrest]
          intro n hn
          rcases List.mem_cons.mp hn with rfl | hn
          · simp [Ne.symm hc, ih name (by simp)]
          · exact ih n (List.mem_cons_of_mem _ hn)

theorem mem_canonStep {result : CanonPath} {comp name : Name} (h : name ∈ canonStep result comp) :
    name ∈ result ∨ name = comp := by
  unfold canonStep at h
  split at h
  · exact Or.inl h
  · split at h
    · exact Or.inl (List.mem_of_mem_dropLast h)
    · simpa using h

/-- The components of a canonical path come from the path. -/
theorem mem_canonPath {path : Bytes} {name : Name} (h : name ∈ canonPath path) :
    name ∈ splitSlash path := by
  suffices hgo : ∀ (comps : List Name) (result : CanonPath),
      name ∈ comps.foldl canonStep result → name ∈ result ∨ name ∈ comps by
    simpa using hgo _ _ h
  intro comps
  induction comps with
  | nil => simp
  | cons comp comps ih =>
      intro result hmem
      rcases ih _ hmem with hresult | hcomps
      · rcases mem_canonStep hresult with hold | rfl
        · exact Or.inl hold
        · exact Or.inr (by simp)
      · exact Or.inr (List.mem_cons_of_mem _ hcomps)

/-- `filename()` of a canonical path. -/
def filename (path : CanonPath) : Name := path.getLast?.getD []

theorem not_mem_filename (path : Bytes) : (47 : UInt8) ∉ filename (canonPath path) := by
  rcases hlast : (canonPath path).getLast? with - | name
  · simp [filename, hlast]
  · simp only [filename, hlast, Option.getD_some]
    exact not_mem_splitSlash path name (mem_canonPath (List.mem_of_getLast? hlast))

/-! ## Names of store paths -/

def HashLen : Nat := 32

def MaxPathLen : Nat := 211

/-- The characters of a store path name. -/
def isNameChar (c : UInt8) : Bool :=
  (48 ≤ c ∧ c ≤ 57) ∨ (97 ≤ c ∧ c ≤ 122) ∨ (65 ≤ c ∧ c ≤ 90) ∨ c ∈ str "+-._?="

/-- The base-32 characters: no `e`, `o`, `u`, `t`. -/
def isHashChar (c : UInt8) : Bool :=
  c ∉ str "eout" ∧ ((48 ≤ c ∧ c ≤ 57) ∨ (97 ≤ c ∧ c ≤ 122))

/-- The checks on a name that starts with a dot. -/
def checkDots (name : Bytes) : Except Error Unit :=
  match name with
  | [46] | [46, 46] => throw ⟨.badStorePathName, "name '%s' is not valid", [name]⟩
  | 46 :: 45 :: _ => throw ⟨.badStorePathName,
      "name '%s' is not valid: first dash-separated component must not be '%s'", [name, str "."]⟩
  | 46 :: 46 :: 45 :: _ => throw ⟨.badStorePathName,
      "name '%s' is not valid: first dash-separated component must not be '%s'", [name, str ".."]⟩
  | _ => pure ()

def checkChars (name : Bytes) : Except Error Unit :=
  match name.find? fun c => !isNameChar c with
  | some c => throw ⟨.badStorePathName, "name '%s' contains illegal character '%s'", [name, [c]]⟩
  | none => pure ()

def checkName (name : Bytes) : Except Error Unit :=
  if name = [] then
    throw ⟨.badStorePathName, "name must not be empty", []⟩
  else if name.length > MaxPathLen then
    throw ⟨.badStorePathName, "name '%s' must be no longer than %d characters",
      [name, natStr MaxPathLen]⟩
  else do
    checkDots name
    checkChars name

def checkPathName (path name : Bytes) : Except Error Unit :=
  match checkName name with
  | .error e =>
      if e.cls = .badStorePathName then
        .error ⟨.badStorePath, "path '%s' is not a valid store path: " ++ e.fmt, path :: e.args⟩
      else .error e
  | .ok _ => .ok ()

/-- The check of the hash part. -/
def checkHashPart (baseName : Bytes) : Except Error Unit :=
  match (baseName.take HashLen).find? fun c => !isHashChar c with
  | some c => throw ⟨.badStorePath, "store path '%s' contains illegal base-32 character '%s'",
      [baseName, [c]]⟩
  | none => pure ()

/-- The checks of the `StorePath` constructor on a base name. -/
def checkBaseName (baseName : Bytes) : Except Error Unit :=
  if baseName.length < HashLen + 1 then
    throw ⟨.badStorePath, "'%s' is too short to be a valid store path", [baseName]⟩
  else do
    checkHashPart baseName
    checkPathName baseName (baseName.drop (HashLen + 1))

/-- A store path: a file name that passed the checks.  The checks leave the byte
after the hash alone; with a slash there the name would be two components, and
no path of the store has one. -/
structure StorePath where
  baseName : Bytes
  valid : checkBaseName baseName = .ok ()
  noSlash : (47 : UInt8) ∉ baseName

namespace StorePath

@[ext] theorem ext {p q : StorePath} (h : p.baseName = q.baseName) : p = q := by
  cases p
  cases q
  cases h
  rfl

instance : DecidableEq StorePath := fun p q =>
  if h : p.baseName = q.baseName then isTrue (ext h) else isFalse fun hpq => h (hpq ▸ rfl)

def hashPart (path : StorePath) : Bytes := path.baseName.take HashLen

def name (path : StorePath) : Bytes := path.baseName.drop (HashLen + 1)

/-- Store paths are ordered as their base names. -/
instance : LT StorePath := ⟨fun p q => p.baseName < q.baseName⟩

instance (p q : StorePath) : Decidable (p < q) := inferInstanceAs (Decidable (p.baseName < q.baseName))

theorem lt_def {p q : StorePath} : p < q ↔ p.baseName < q.baseName := Iff.rfl

/-- The constructor from a file name. -/
def ofBaseName (baseName : Bytes) (hslash : (47 : UInt8) ∉ baseName) : Except Error StorePath :=
  match h : checkBaseName baseName with
  | .ok () => .ok ⟨baseName, h, hslash⟩
  | .error e => .error e

theorem ofBaseName_baseName (p : StorePath) : ofBaseName p.baseName p.noSlash = .ok p := by
  unfold ofBaseName
  split
  · rfl
  · rename_i e he
    rw [p.valid] at he
    cases he

end StorePath

/-- `std::set<StorePath>::insert`: the set is kept in ascending order. -/
def insertStorePath (path : StorePath) (paths : List StorePath) : List StorePath :=
  if path ∈ paths then paths else paths.orderedInsert (· < ·) path

theorem mem_insertStorePath {p q : StorePath} {paths : List StorePath} :
    q ∈ insertStorePath p paths ↔ q = p ∨ q ∈ paths := by
  unfold insertStorePath
  split
  · rename_i hmem
    constructor
    · exact Or.inr
    · rintro (rfl | hq)
      · exact hmem
      · exact hq
  · exact List.mem_orderedInsert _

theorem nodup_insertStorePath {p : StorePath} {paths : List StorePath} (h : paths.Nodup) :
    (insertStorePath p paths).Nodup := by
  unfold insertStorePath
  split
  · exact h
  · rename_i hnew
    rw [(List.perm_orderedInsert _ p paths).nodup_iff]
    exact List.nodup_cons.mpr ⟨hnew, h⟩

/-- The store directory as it is spelled in store paths. -/
structure StoreDirConfig where
  storeDir : CanonPath
  nonempty : storeDir ≠ []
  canonical : ∀ name ∈ storeDir, name ≠ [] ∧ name ≠ str "." ∧ name ≠ str ".." ∧ (47 : UInt8) ∉ name

namespace StoreDirConfig

def nixStore : StoreDirConfig := ⟨[str "nix", str "store"], by decide, by decide⟩

variable (cfg : StoreDirConfig)

def parseStorePath (path : Bytes) : Except Error StorePath :=
  if path = [] then .error ⟨.badStorePath, "empty path is not a valid store path", []⟩
  else if !isAbsolute path then .error ⟨.error, "not an absolute path: %s", [path]⟩
  else
    let p := canonPath path
    if p.dropLast ≠ cfg.storeDir then
      .error ⟨.badStorePath, "path %s is not in the Nix store", [CanonPath.abs p]⟩
    else StorePath.ofBaseName (filename p) (not_mem_filename path)

def printStorePath (path : StorePath) : Bytes :=
  CanonPath.abs cfg.storeDir ++ str "/" ++ path.baseName

def isInStore (path : Bytes) : Bool := isInDir path (CanonPath.abs cfg.storeDir)

/-- The store path a path leads into, and the rest of it. -/
def toStorePath (path : Bytes) : Except Error (StorePath × CanonPath) :=
  if !cfg.isInStore path then .error ⟨.error, "path '%1%' is not in the Nix store", [path]⟩
  else
    let start := (CanonPath.abs cfg.storeDir).length + 1
    let rest := (path.drop start).dropWhile (· ≠ 47)
    let storePath := path.take start ++ (path.drop start).takeWhile (· ≠ 47)
    match cfg.parseStorePath storePath with
    | .ok p => .ok (p, canonPath rest)
    | .error e => .error e

end StoreDirConfig

theorem checkDots_error {name : Bytes} {e : Error} (h : checkDots name = .error e) :
    e.cls = .badStorePathName := by
  unfold checkDots at h
  split at h <;> cases h <;> rfl

theorem checkChars_error {name : Bytes} {e : Error} (h : checkChars name = .error e) :
    e.cls = .badStorePathName := by
  unfold checkChars at h
  split at h
  · cases h
    rfl
  · cases h

theorem checkName_error {name : Bytes} {e : Error} (h : checkName name = .error e) :
    e.cls = .badStorePathName := by
  unfold checkName at h
  split at h
  · cases h
    rfl
  split at h
  · cases h
    rfl
  rcases hdots : checkDots name with e' | _
  · rw [hdots] at h
    cases h
    exact checkDots_error hdots
  · rw [hdots] at h
    exact checkChars_error h

theorem checkPathName_error {path name : Bytes} {e : Error}
    (h : checkPathName path name = .error e) : e.cls = .badStorePath := by
  unfold checkPathName at h
  split at h
  · rename_i e' he'
    rw [if_pos (checkName_error he')] at h
    cases h
    rfl
  · cases h

theorem checkHashPart_error {baseName : Bytes} {e : Error}
    (h : checkHashPart baseName = .error e) : e.cls = .badStorePath := by
  unfold checkHashPart at h
  split at h
  · cases h
    rfl
  · cases h

theorem checkBaseName_error {baseName : Bytes} {e : Error}
    (h : checkBaseName baseName = .error e) : e.cls = .badStorePath := by
  unfold checkBaseName at h
  split at h
  · cases h
    rfl
  rcases hhash : checkHashPart baseName with e' | _
  · rw [hhash] at h
    cases h
    exact checkHashPart_error hhash
  · rw [hhash] at h
    exact checkPathName_error h

/-! ## Printed store paths -/

section Lexical

variable {path rest : Bytes} {name : Name}

theorem splitSlash_name (h : (47 : UInt8) ∉ name) : splitSlash name = [name] := by
  induction name with
  | nil => rfl
  | cons c name ih =>
      simp only [List.mem_cons, not_or] at h
      simp [splitSlash, Ne.symm h.1, ih h.2]

theorem splitSlash_append (h : (47 : UInt8) ∉ name) :
    splitSlash (name ++ 47 :: rest) = name :: splitSlash rest := by
  induction name with
  | nil => simp [splitSlash]
  | cons c name ih =>
      simp only [List.mem_cons, not_or] at h
      simp [splitSlash, Ne.symm h.1, ih h.2]

theorem abs_of_ne_nil {path : CanonPath} (h : path ≠ []) :
    CanonPath.abs path = path.flatMap fun name => 47 :: name := by
  cases path with
  | nil => exact absurd rfl h
  | cons name names => rfl

/-- A canonical path followed by more splits into its components first. -/
theorem splitSlash_abs {path : CanonPath} (hne : path ≠ [])
    (h : ∀ name ∈ path, (47 : UInt8) ∉ name) :
    splitSlash (CanonPath.abs path ++ 47 :: rest) = [] :: (path ++ splitSlash rest) := by
  rw [abs_of_ne_nil hne]
  clear hne
  have hgo : ∀ first : Name, (47 : UInt8) ∉ first →
      splitSlash (first ++ ((path.flatMap fun name => 47 :: name) ++ 47 :: rest)) =
        first :: (path ++ splitSlash rest) := by
    induction path with
    | nil =>
        intro first hfirst
        simp [splitSlash_append hfirst]
    | cons name names ih =>
        intro first hfirst
        simp only [List.flatMap_cons, List.cons_append, List.append_assoc, splitSlash_append hfirst]
        rw [ih (fun n hn => h n (List.mem_cons_of_mem _ hn)) name (h name (by simp))]
  exact hgo [] (by simp)

theorem splitSlash_abs_self {path : CanonPath} (hne : path ≠ [])
    (h : ∀ name ∈ path, (47 : UInt8) ∉ name) : splitSlash (CanonPath.abs path) = [] :: path := by
  obtain ⟨names, name, rfl⟩ := List.eq_nil_or_concat path |>.resolve_left hne
  rw [List.concat_eq_append] at hne h ⊢
  rcases List.eq_nil_or_concat names with rfl | ⟨init, last, rfl⟩
  · have hname := splitSlash_name (h name (by simp))
    simpa [abs_of_ne_nil] using (splitSlash_append (by simp : (47 : UInt8) ∉ ([] : Name))).trans
      (congrArg _ hname)
  · rw [List.concat_eq_append] at h ⊢
    rw [show CanonPath.abs (init ++ [last] ++ [name]) = CanonPath.abs (init ++ [last]) ++ 47 :: name by
        simp [abs_of_ne_nil],
      splitSlash_abs (by simp) fun n hn => h n (List.mem_append_left _ hn),
      splitSlash_name (h name (by simp))]

theorem mismatch_append (as bs : List Name) : mismatch (as ++ bs) as = (bs, []) := by
  induction as with
  | nil => cases bs <;> rfl
  | cons a as ih => simp [mismatch, ih]

theorem isAbsolute_abs (path : CanonPath) (rest : Bytes) :
    isAbsolute (CanonPath.abs path ++ rest) = true := by
  cases path <;> rfl

end Lexical

namespace StorePath

theorem baseName_length (p : StorePath) : HashLen < p.baseName.length := by
  by_contra hlen
  have hvalid := p.valid
  rw [checkBaseName, if_pos (by omega)] at hvalid
  cases hvalid

/-- The characters of the hash part are base-32. -/
theorem isHashChar_of_mem (p : StorePath) {c : UInt8} (h : c ∈ p.baseName.take HashLen) :
    isHashChar c = true := by
  have hvalid := p.valid
  rw [checkBaseName, if_neg (by have := p.baseName_length; omega)] at hvalid
  rcases hfind : (p.baseName.take HashLen).find? fun c => !isHashChar c with - | bad
  · simpa using List.find?_eq_none.mp hfind c h
  · rw [checkHashPart, hfind] at hvalid
    cases hvalid

theorem isHashChar_head (p : StorePath) : ∃ c rest, p.baseName = c :: rest ∧ isHashChar c = true := by
  rcases hbase : p.baseName with - | ⟨c, rest⟩
  · have hlen := p.baseName_length
    simp [hbase] at hlen
  · exact ⟨c, rest, rfl, p.isHashChar_of_mem (by simp [hbase, HashLen])⟩

/-- A store path does not start with a character that is not base-32, such as a
dot. -/
theorem ne_of_head (p : StorePath) {c : UInt8} {rest : Bytes} (hc : isHashChar c = false) :
    p.baseName ≠ c :: rest := by
  obtain ⟨c', rest', hbase, hhash⟩ := p.isHashChar_head
  rw [hbase]
  rintro ⟨⟩
  rw [hc] at hhash
  cases hhash

theorem ne_nil (p : StorePath) : p.baseName ≠ [] := by
  intro hnil
  have hlen := p.baseName_length
  simp [hnil] at hlen

end StorePath

namespace StoreDirConfig

variable (cfg : StoreDirConfig) (p : StorePath)

theorem noSlash : ∀ name ∈ cfg.storeDir, (47 : UInt8) ∉ name := fun name hname =>
  (cfg.canonical name hname).2.2.2

theorem canonPath_printStorePath :
    canonPath (cfg.printStorePath p) = cfg.storeDir ++ [p.baseName] := by
  have hsplit : splitSlash (cfg.printStorePath p) = [] :: (cfg.storeDir ++ [p.baseName]) := by
    rw [printStorePath, List.append_assoc, show str "/" ++ p.baseName = 47 :: p.baseName from rfl,
      splitSlash_abs cfg.nonempty cfg.noSlash, splitSlash_name p.noSlash]
  have hgo : ∀ (comps result : CanonPath),
      (∀ c ∈ comps, c ≠ [] ∧ c ≠ str "." ∧ c ≠ str "..") →
      comps.foldl canonStep result = result ++ comps := by
    intro comps
    induction comps with
    | nil => simp
    | cons c comps ih =>
        intro result hcomps
        obtain ⟨h₁, h₂, h₃⟩ := hcomps c (by simp)
        simp [canonStep, h₁, h₂, h₃, ih _ fun c' hc' => hcomps c' (List.mem_cons_of_mem _ hc')]
  have hbase : p.baseName ≠ [] ∧ p.baseName ≠ str "." ∧ p.baseName ≠ str ".." :=
    ⟨p.ne_nil, p.ne_of_head (by decide), p.ne_of_head (by decide)⟩
  rw [canonPath, hsplit, List.foldl_cons, show canonStep [] [] = [] from rfl, hgo]
  · simp
  · intro c hc
    rcases List.mem_append.mp hc with hc | hc
    · exact ⟨(cfg.canonical c hc).1, (cfg.canonical c hc).2.1, (cfg.canonical c hc).2.2.1⟩
    · rw [List.mem_singleton.mp hc]
      exact hbase

theorem parseStorePath_printStorePath : cfg.parseStorePath (cfg.printStorePath p) = .ok p := by
  have hne : cfg.printStorePath p ≠ [] := by
    intro hnil
    have := congrArg List.length hnil
    simp [printStorePath, str] at this
  have habs : isAbsolute (cfg.printStorePath p) = true := by
    rw [printStorePath, List.append_assoc, isAbsolute_abs]
  simp [parseStorePath, hne, habs, canonPath_printStorePath, filename, StorePath.ofBaseName_baseName]

theorem printStorePath_injective : Function.Injective cfg.printStorePath := by
  intro p q h
  have hp := cfg.parseStorePath_printStorePath p
  rw [h, parseStorePath_printStorePath] at hp
  exact (Except.ok.inj hp).symm

theorem components_storeDir : components (CanonPath.abs cfg.storeDir) = cfg.storeDir := by
  have hne : ∀ c ∈ cfg.storeDir, c ≠ [] := fun c hc => (cfg.canonical c hc).1
  have hfilter : (([] :: cfg.storeDir : List Name).filter (· ≠ [])) = cfg.storeDir := by
    simpa [List.filter_eq_self] using hne
  rw [components, splitSlash_abs_self cfg.nonempty cfg.noSlash, hfilter, if_neg]
  rintro ⟨-, hlast⟩
  rw [List.getLast?_cons_of_ne_nil cfg.nonempty] at hlast
  exact hne _ (List.mem_of_getLast? hlast) rfl

/-- An absolute path that does not parse is a bad store path. -/
theorem parseStorePath_error {cfg : StoreDirConfig} {path : Bytes} {e : Error}
    (habs : isAbsolute path = true) (h : cfg.parseStorePath path = .error e) :
    e.cls = .badStorePath := by
  unfold parseStorePath at h
  split at h
  · cases h
    rfl
  · rw [habs] at h
    simp only [Bool.not_true, Bool.false_eq_true, if_false] at h
    split at h
    · cases h
      rfl
    · unfold StorePath.ofBaseName at h
      split at h
      · cases h
      · rename_i e' he'
        cases h
        exact checkBaseName_error he'

/-- What starts with a printed store path, as a whole component. -/
theorem components_printStorePath {rest : Bytes} (hrest : rest = [] ∨ rest.head? = some 47) :
    ∃ tail, components (cfg.printStorePath p ++ rest) = cfg.storeDir ++ p.baseName :: tail := by
  obtain ⟨names, hnames⟩ : ∃ names, splitSlash (cfg.printStorePath p ++ rest) =
      [] :: (cfg.storeDir ++ p.baseName :: names) := by
    have hprint : cfg.printStorePath p ++ rest =
        CanonPath.abs cfg.storeDir ++ 47 :: (p.baseName ++ rest) := by
      simp [printStorePath, show str "/" = [47] from rfl]
    rw [hprint, splitSlash_abs cfg.nonempty cfg.noSlash]
    rcases hrest with rfl | hslash
    · exact ⟨[], by simp [splitSlash_name p.noSlash]⟩
    · obtain ⟨rest, rfl⟩ : ∃ r, rest = 47 :: r := by
        cases rest with
        | nil => simp at hslash
        | cons c r => exact ⟨r, by simpa using hslash⟩
      exact ⟨splitSlash rest, by rw [splitSlash_append p.noSlash]⟩
  have hstore : cfg.storeDir.filter (· ≠ []) = cfg.storeDir := by
    simpa [List.filter_eq_self] using fun c hc => (cfg.canonical c hc).1
  have hproper : (([] :: (cfg.storeDir ++ p.baseName :: names) : List Name).filter (· ≠ [])) =
      cfg.storeDir ++ p.baseName :: names.filter (· ≠ []) := by
    rw [List.filter_cons_of_neg (by simp), List.filter_append, hstore,
      List.filter_cons_of_pos (by simpa using p.ne_nil)]
  simp only [components, hnames, hproper]
  split
  · exact ⟨names.filter (· ≠ []) ++ [[]], by simp⟩
  · exact ⟨_, rfl⟩

theorem isInStore_printStorePath {rest : Bytes} (hrest : rest = [] ∨ rest.head? = some 47) :
    cfg.isInStore (cfg.printStorePath p ++ rest) = true := by
  obtain ⟨tail, htail⟩ := cfg.components_printStorePath p hrest
  have habs : isAbsolute (cfg.printStorePath p ++ rest) = isAbsolute (CanonPath.abs cfg.storeDir) := by
    rw [printStorePath, List.append_assoc, List.append_assoc, isAbsolute_abs,
      ← List.append_nil (CanonPath.abs cfg.storeDir), isAbsolute_abs]
  have hrel : lexicallyRelative (cfg.printStorePath p ++ rest) (CanonPath.abs cfg.storeDir) =
      p.baseName :: tail := by
    simp [lexicallyRelative, habs, htail, components_storeDir, mismatch_append, p.ne_nil]
  have hdot : p.baseName ≠ str "." := p.ne_of_head (by decide)
  have hdots : p.baseName ≠ str ".." := p.ne_of_head (by decide)
  simp [isInStore, isInDir, hrel, hdot, hdots]

/-- A printed store path, alone or with anything below it, leads into that store
path. -/
theorem toStorePath_printStorePath {rest : Bytes} (hrest : rest = [] ∨ rest.head? = some 47) :
    cfg.toStorePath (cfg.printStorePath p ++ rest) = .ok (p, canonPath rest) := by
  have hstart : (CanonPath.abs cfg.storeDir).length + 1 =
      (CanonPath.abs cfg.storeDir ++ str "/").length := by simp [str]
  have hrestWhile : ∀ b : Bytes, (47 : UInt8) ∉ b →
      (b ++ rest).takeWhile (· ≠ 47) = b ∧ (b ++ rest).dropWhile (· ≠ 47) = rest := by
    intro b hb
    have hall : ∀ c ∈ b, decide (c ≠ 47) = true := fun c hc => by
      simpa using fun heq : c = 47 => hb (heq ▸ hc)
    rw [List.takeWhile_append_of_pos hall, List.dropWhile_append_of_pos hall]
    rcases hrest with rfl | hslash
    · simp
    · cases rest with
      | nil => simp at hslash
      | cons c r =>
          obtain rfl : c = 47 := by simpa using hslash
          simp
  have hprint : cfg.printStorePath p ++ rest =
      (CanonPath.abs cfg.storeDir ++ str "/") ++ (p.baseName ++ rest) := by
    simp [printStorePath]
  have hparse := cfg.parseStorePath_printStorePath p
  rw [toStorePath, cfg.isInStore_printStorePath p hrest]
  simp only [hprint, hstart, List.drop_left, List.take_left, hrestWhile _ p.noSlash]
  rw [show CanonPath.abs cfg.storeDir ++ str "/" ++ p.baseName = cfg.printStorePath p from rfl,
    hparse]
  rfl

end StoreDirConfig

end Store
end Archinix
