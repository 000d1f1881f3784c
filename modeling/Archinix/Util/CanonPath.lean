import Archinix.Util.CanonPathInner
import Archinix.Util.Serialise

/-!
# Canonical paths

The class `CanonPath` of `canon-path.cc`: a string with operations on offsets into
it.  Whether the string keeps the documented invariants is a property of the value
here (`Canonical`), since the class has an unchecked constructor and mutators that
rely on it.  A string keeps them exactly when it is the written form of a list of
proper file names (`canonical_iff`); for such strings every operation is one on the
lists.
-/

namespace Archinix
namespace Util

/-! ## Finding slashes -/

/-- `s.find(c)`. -/
def find (c : UInt8) (s : Bytes) : Option Nat := s.idxOf? c

/-- `s.rfind(c)`. -/
def rfind (c : UInt8) (s : Bytes) : Option Nat := (s.reverse.idxOf? c).map fun i => s.length - 1 - i

/-! ## The class -/

/-- A `CanonPath` with the string it keeps. -/
structure CanonString where
  path : Bytes
  deriving DecidableEq

/-- `throw BadCanonPath(fmt, args)`. -/
def badCanonPath (fmt : String) (args : List Bytes) : Error := ⟨.badCanonPath, fmt, args⟩

/-- `absPathPure`. -/
def absPathPure (path : Bytes) : Bytes :=
  match canonPathInner noHook (path.length + 1) () path with
  | some (.ok (_, result)) => result
  | some (.error e) => nomatch e
  -- there are rounds enough
  | none => []

/-- `ensureNoNullBytes`. -/
def ensureNoNullBytes (s : Bytes) : Except Error Unit :=
  if (0 : UInt8) ∈ s then
    .error (badCanonPath "path segment '%s' must not contain null (\\0) bytes"
      [s.flatMap fun b => if b = 0 then [0xe2, 0x90, 0x80] else [b]])
  else .ok ()

namespace CanonString

/-- The documented invariants. -/
structure Canonical (p : CanonString) : Prop where
  starts : p.path.head? = some 47
  noTrailing : p.path.getLast? = some 47 → p.path = str "/"
  noDouble : ¬ [47, 47] <:+: p.path
  noDots : ∀ c ∈ splitPath p.path, c ≠ str "." ∧ c ≠ str ".."
  noNull : (0 : UInt8) ∉ p.path

def root : CanonString := ⟨str "/"⟩

/-- `CanonPath(raw)`. -/
def ofRaw (raw : Bytes) : Except Error CanonString := do
  let path := absPathPure (str "/" ++ raw)
  ensureNoNullBytes raw
  return ⟨path⟩

/-- `CanonPath(raw, root)`. -/
def ofRawIn (raw : Bytes) (root : CanonString) : Except Error CanonString := do
  let path := absPathPure (if raw.head? = some 47 then raw else root.path ++ str "/" ++ raw)
  ensureNoNullBytes raw
  return ⟨path⟩

variable (p : CanonString)

def isRoot : Bool := p.path.length ≤ 1

def rel : Bytes := p.path.drop 1

/-- `*it` for an iterator at `position`: the rest of the path up to its next slash. -/
def segment (position : Nat) : Name :=
  let remaining := p.path.drop position
  match find 47 remaining with
  | some slash => remaining.take slash
  | none => remaining

/-- `++it`. -/
def next (position : Nat) : Nat :=
  match find 47 (p.path.drop position) with
  | some slash => position + slash + 1
  | none => p.path.length

/-- Iterate from a position up to the end, at most so many steps. -/
def iterate : (steps : Nat) → (position : Nat) → List Name
  | 0, _ => []
  | steps + 1, position =>
      if position = p.path.length then []
      else p.segment position :: iterate steps (p.next position)

/-- What iterating from `begin()` to `end()` yields. -/
def segments : List Name := p.iterate p.path.length 1

/-- `CanonPath::fromFilename`. -/
def fromFilename (segment : Bytes) : Except Error CanonString := do
  let res ← ofRaw segment
  if segment ≠ res.rel ∨ res.segments.length ≠ 1 then
    throw (badCanonPath "invalid filename '%s'" [segment])
  return res

/-- `path.substr(0, std::max((size_t) 1, path.rfind('/')))`. -/
def upToLastSlash : Bytes :=
  match rfind 47 p.path with
  | some i => p.path.take (max 1 i)
  | none => p.path

def parent : Option CanonString := if p.isRoot then none else some ⟨p.upToLastSlash⟩

/-- `pop`, unless its assertion fails. -/
def pop : Option CanonString := if p.isRoot then none else some ⟨p.upToLastSlash⟩

def isWithin (parent : CanonString) : Bool :=
  ¬ (p.path.length < parent.path.length ∨ p.path.take parent.path.length ≠ parent.path ∨
    (parent.path.length > 1 ∧ p.path.length > parent.path.length ∧
      p.path[parent.path.length]? ≠ some 47))

/-- `removePrefix`, unless its assertion fails. -/
def removePrefix (front : CanonString) : Option CanonString :=
  if p.isWithin front then
    if front.isRoot then some p
    else if p.path.length = front.path.length then some root
    else some ⟨p.path.drop front.path.length⟩
  else none

def extend (x : CanonString) : CanonString :=
  if x.isRoot then p
  else if p.isRoot then ⟨p.path ++ x.rel⟩
  else ⟨p.path ++ x.path⟩

/-- `operator/(const CanonPath &)`. -/
def append (x : CanonString) : CanonString := p.extend x

/-- `push`, unless an assertion fails; what it throws otherwise. -/
def push (c : Name) : Option (Except Error CanonString) :=
  if (47 : UInt8) ∈ c then none
  else if c = str "." ∨ c = str ".." then none
  else some do
    ensureNoNullBytes c
    return ⟨(if p.isRoot then p.path else p.path ++ str "/") ++ c⟩

/-- `operator/(std::string_view)`. -/
def appendName (c : Name) : Option (Except Error CanonString) := p.push c

/-- The rounds of the constructor from a vector. -/
def pushAll (r : Option (Except Error CanonString)) (elems : List Name) :
    Option (Except Error CanonString) :=
  elems.foldl (fun r s => r.bind fun
    | .ok p => p.push s
    | .error e => some (.error e)) r

/-- `CanonPath(elems)`. -/
def ofElems (elems : List Name) : Option (Except Error CanonString) :=
  pushAll (some (.ok root)) elems

def baseName : Option Name :=
  if p.isRoot then none
  else
    match rfind 47 p.path with
    | some i => some (p.path.drop (i + 1))
    | none => some p.path

end CanonString

theorem find_of_not_mem {c : UInt8} {s : Bytes} (h : c ∉ s) : find c s = none :=
  List.idxOf?_eq_none_iff.mpr h

theorem find_append {c : UInt8} {before : Bytes} (h : c ∉ before) (after : Bytes) :
    find c (before ++ c :: after) = some before.length := by
  induction before with
  | nil => simp [find, List.idxOf?_cons]
  | cons b before ih =>
      have hb : b ≠ c := fun heq => h (by simp [heq])
      have hrest := ih fun hmem => h (List.mem_cons_of_mem _ hmem)
      unfold find at hrest ⊢
      rw [List.cons_append, List.idxOf?_cons, if_neg (by simpa using hb), hrest]
      rfl

theorem rfind_append {c : UInt8} {after : Bytes} (h : c ∉ after) (before : Bytes) :
    rfind c (before ++ c :: after) = some before.length := by
  have hreverse : (before ++ c :: after).reverse = after.reverse ++ c :: before.reverse := by simp
  have hfound := find_append (fun hmem => h (List.mem_reverse.mp hmem)) before.reverse
  rw [find, List.length_reverse] at hfound
  rw [rfind, hreverse, hfound, Option.map_some, List.length_append, List.length_cons]
  congr 1
  omega

/-! ## Written lists of names -/

/-- The name of a file: a component of a canonical path. -/
structure FileName (c : Name) : Prop where
  ne_nil : c ≠ []
  ne_dot : c ≠ str "."
  ne_up : c ≠ str ".."
  noSlash : (47 : UInt8) ∉ c
  noNull : (0 : UInt8) ∉ c

theorem slashed_splitPath (rest : Bytes) : slashed (splitPath rest) = 47 :: rest := by
  induction rest with
  | nil => rfl
  | cons c rest ih =>
      rw [splitPath, List.splitOn_cons_eq_if_modifyHead]
      by_cases hc : c = 47
      · rw [if_pos (by simpa using hc), slashed_cons, hc]
        exact congrArg (47 :: ·) ih
      · rw [if_neg (by simpa using hc)]
        rcases hsplit : splitPath rest with - | ⟨name, names⟩
        · exact absurd hsplit (List.splitOn_ne_nil 47 rest)
        · rw [hsplit] at ih
          rw [show List.splitOn 47 rest = name :: names from hsplit, List.modifyHead_cons]
          simpa using ih

theorem atSlash_slashed (names : List Name) : AtSlash (slashed names) := by
  cases names with
  | nil => exact Or.inl rfl
  | cons name names => exact Or.inr ⟨_, slashed_cons name names⟩

theorem splitPath_append_slashed {name : Name} {names : List Name} (h : NoSlash (name :: names)) :
    splitPath (name ++ slashed names) = name :: names := by
  induction names generalizing name with
  | nil =>
      rw [slashed_nil, List.append_nil]
      exact List.splitOn_eq_singleton (h name (by simp))
  | cons name' names ih =>
      rw [slashed_cons, splitPath, List.splitOn_append_cons_self_of_not_mem (h name (by simp))]
      congr 1
      exact ih fun n hn => h n (List.mem_cons_of_mem _ hn)

/-- A written list splits into its names. -/
theorem splitPath_slashed {name : Name} {names : List Name} (h : NoSlash (name :: names)) :
    splitPath (slashed (name :: names)) = [] :: name :: names := by
  rw [slashed_cons, splitPath_slash, splitPath_append_slashed h]

theorem noSlash_of_fileName {names : List Name} (h : ∀ c ∈ names, FileName c) : NoSlash names :=
  fun c hc => (h c hc).noSlash

theorem foldl_pushComponent {names : List Name} (h : ∀ c ∈ names, FileName c) (stack : List Name) :
    names.foldl pushComponent stack = stack ++ names := by
  induction names generalizing stack with
  | nil => simp
  | cons c names ih =>
      obtain ⟨hne, hdot, hup, -, -⟩ := h c (by simp)
      rw [List.foldl_cons, ih fun c' hc' => h c' (List.mem_cons_of_mem _ hc'), pushComponent,
        if_neg (by simp [hne, hdot]), if_neg hup, List.append_assoc, List.singleton_append]

theorem splitPath_abs_mem {names : List Name} (h : NoSlash names) {c : Name}
    (hc : c ∈ splitPath (CanonPath.abs names)) : c = [] ∨ c ∈ names := by
  cases names with
  | nil =>
      rw [show CanonPath.abs [] = [47] from rfl, splitPath_slash] at hc
      simp [splitPath, List.splitOn_nil] at hc
      exact Or.inl hc
  | cons name names =>
      rw [show CanonPath.abs (name :: names) = slashed (name :: names) from rfl,
        splitPath_slashed h] at hc
      exact (List.mem_cons.mp hc).imp id id

theorem splitPath_append_slash (before rest : Bytes) :
    splitPath (before ++ 47 :: rest) = splitPath before ++ splitPath rest :=
  List.splitOn_append_cons_self before rest

/-- A written list has an empty stretch in front only. -/
theorem not_empty_stretch {names : List Name} (h : ∀ c ∈ names, FileName c) {before after : Bytes}
    (hpath : slashed names = before ++ 47 :: after) : [] ∈ splitPath after → False := by
  intro hmem
  cases names with
  | nil => simp at hpath
  | cons name names =>
      have hsplit := splitPath_slashed (noSlash_of_fileName h)
      rw [hpath, splitPath_append_slash] at hsplit
      -- the empty stretch at the front is not the one behind the slash
      rcases hbefore : splitPath before with - | ⟨first, more⟩
      · exact List.splitOn_ne_nil 47 before hbefore
      · rw [hbefore, List.cons_append] at hsplit
        have hnames : more ++ splitPath after = name :: names := (List.cons.inj hsplit).2
        have hname : [] ∈ name :: names := hnames ▸ List.mem_append_right _ hmem
        exact (h [] hname).ne_nil rfl

namespace CanonString

/-- The path with the given components. -/
def ofNames (names : List Name) : CanonString := ⟨CanonPath.abs names⟩

theorem path_ofNames_cons (name : Name) (names : List Name) :
    (ofNames (name :: names)).path = slashed (name :: names) := rfl

theorem path_ofNames {names : List Name} (h : names ≠ []) : (ofNames names).path = slashed names := by
  cases names with
  | nil => exact absurd rfl h
  | cons name names => rfl

@[simp] theorem ofNames_nil : ofNames [] = root := rfl

theorem canonical_ofNames {names : List Name} (h : ∀ c ∈ names, FileName c) :
    (ofNames names).Canonical := by
  by_cases hnil : names = []
  · subst hnil
    refine ⟨rfl, fun _ => rfl, by decide, ?_, by decide⟩
    intro c hc
    rcases splitPath_abs_mem (noSlash_of_fileName h) hc with rfl | hmem
    · decide
    · cases hmem
  · refine ⟨?_, fun hlast => ?_, fun hdouble => ?_, fun c hc => ?_, fun hnull => ?_⟩
    · obtain ⟨name, names, rfl⟩ := List.exists_cons_of_ne_nil hnil
      rfl
    · rw [path_ofNames hnil] at hlast
      obtain ⟨before, hbefore⟩ := List.getLast?_eq_some_iff.mp hlast
      exact (not_empty_stretch h hbefore (by simp [splitPath, List.splitOn_nil])).elim
    · obtain ⟨before, after, hpath⟩ := hdouble
      rw [path_ofNames hnil, List.append_assoc] at hpath
      refine not_empty_stretch h hpath.symm ?_
      show [] ∈ splitPath (47 :: after)
      simp [splitPath_slash]
    · rcases splitPath_abs_mem (noSlash_of_fileName h) hc with rfl | hmem
      · decide
      · exact ⟨(h c hmem).ne_dot, (h c hmem).ne_up⟩
    · rw [path_ofNames hnil, slashed, List.mem_flatMap] at hnull
      obtain ⟨c, hc, hmem⟩ := hnull
      rcases List.mem_cons.mp hmem with hzero | hmem
      · revert hzero
        decide
      · exact (h c hc).noNull hmem

/-- The canonical strings are the written lists of file names. -/
theorem canonical_iff {p : CanonString} :
    p.Canonical ↔ ∃ names, (∀ c ∈ names, FileName c) ∧ p = ofNames names := by
  constructor
  · intro h
    obtain ⟨rest, hrest⟩ := List.head?_eq_some_iff.mp h.starts
    by_cases hnil : rest = []
    · refine ⟨[], by simp, ?_⟩
      rcases p with ⟨path⟩
      rw [hnil] at hrest
      exact congrArg CanonString.mk hrest
    · have hwritten : p.path = slashed (splitPath rest) := by rw [slashed_splitPath, hrest]
      refine ⟨splitPath rest, fun c hc => ⟨?_, ?_, ?_, noSlash_splitPath rest c hc, ?_⟩, ?_⟩
      · rintro rfl
        obtain ⟨before, after, hsplit⟩ := List.append_of_mem hc
        rw [hsplit, slashed_append, slashed_cons, List.nil_append] at hwritten
        rcases after with - | ⟨name, names⟩
        · -- an empty component at the end is a trailing slash
          have hlast := h.noTrailing (by rw [hwritten]; simp)
          rw [hrest] at hlast
          exact hnil (List.cons.inj hlast).2
        · refine h.noDouble ⟨slashed before, name ++ slashed names, ?_⟩
          rw [hwritten, slashed_cons]
          simp
      · have hmem : c ∈ splitPath p.path := by
          rw [hrest, splitPath_slash]
          exact List.mem_cons_of_mem _ hc
        exact (h.noDots c hmem).1
      · have hmem : c ∈ splitPath p.path := by
          rw [hrest, splitPath_slash]
          exact List.mem_cons_of_mem _ hc
        exact (h.noDots c hmem).2
      · intro hzero
        refine h.noNull ?_
        rw [hwritten, slashed, List.mem_flatMap]
        exact ⟨c, hc, List.mem_cons_of_mem _ hzero⟩
      · have hne : splitPath rest ≠ [] := List.splitOn_ne_nil 47 rest
        rcases p with ⟨path⟩
        exact congrArg CanonString.mk (hwritten.trans (path_ofNames hne).symm)
  · rintro ⟨names, hnames, rfl⟩
    exact canonical_ofNames hnames

/-! ## Components -/

theorem length_slashed_le (names : List Name) : names.length ≤ (slashed names).length := by
  induction names with
  | nil => simp
  | cons name names ih =>
      rw [slashed_cons, List.length_cons, List.length_cons, List.length_append]
      omega

/-- Iterating from the start of a component yields it and those that follow. -/
theorem iterate_eq {p : CanonString} {name : Name} {names : List Name}
    (hslash : NoSlash (name :: names)) (hne : ∀ c ∈ name :: names, c ≠ []) {steps position : Nat}
    (hsteps : names.length < steps) (hposition : p.path.drop position = name ++ slashed names) :
    p.iterate steps position = name :: names := by
  induction names generalizing steps position name with
  | nil =>
      obtain ⟨steps, rfl⟩ := Nat.exists_eq_succ_of_ne_zero (by omega : steps ≠ 0)
      rw [slashed_nil, List.append_nil] at hposition
      have hhere : position ≠ p.path.length := by
        rintro rfl
        rw [List.drop_length] at hposition
        exact hne name (by simp) hposition.symm
      have hfind : find 47 (p.path.drop position) = none := by
        rw [hposition]
        exact find_of_not_mem (hslash name (by simp))
      rw [iterate, if_neg hhere, segment, next, hfind]
      dsimp only
      rw [hposition]
      cases steps with
      | zero => rfl
      | succ steps => rw [iterate, if_pos rfl]
  | cons name' names ih =>
      obtain ⟨steps, rfl⟩ := Nat.exists_eq_succ_of_ne_zero (by omega : steps ≠ 0)
      rw [slashed_cons] at hposition
      have hhere : position ≠ p.path.length := by
        rintro rfl
        rw [List.drop_length] at hposition
        exact absurd (congrArg List.length hposition) (by simp)
      have hfind : find 47 (p.path.drop position) = some name.length := by
        rw [hposition]
        exact find_append (hslash name (by simp)) _
      have hrest : p.path.drop (position + name.length + 1) = name' ++ slashed names := by
        rw [Nat.add_assoc, ← List.drop_drop, hposition, ← List.drop_drop, List.drop_left]
        rfl
      rw [iterate, if_neg hhere, segment, next, hfind]
      dsimp only
      rw [hposition, List.take_left]
      congr 1
      exact ih (fun c hc => hslash c (List.mem_cons_of_mem _ hc))
        (fun c hc => hne c (List.mem_cons_of_mem _ hc))
        (by rw [List.length_cons] at hsteps; omega) hrest

/-- A canonical path yields its components. -/
theorem segments_ofNames {names : List Name} (h : ∀ c ∈ names, FileName c) :
    (ofNames names).segments = names := by
  cases names with
  | nil => rfl
  | cons name names =>
      refine iterate_eq (noSlash_of_fileName h) (fun c hc => (h c hc).ne_nil) ?_ ?_
      · have hlen := length_slashed_le (name :: names)
        rw [path_ofNames_cons]
        simp only [List.length_cons] at hlen
        omega
      · rw [path_ofNames_cons, slashed_cons]
        rfl

/-! ## Construction -/

theorem absPathPure_eq (path : Bytes) : absPathPure path = CanonPath.abs (normalise path) := by
  have hloop : canonPathLoop noHook (path.length + 1) () [] path =
      some (.ok ((), slashed (normalise path))) :=
    canonPathLoop_plain (show NoSlash [] by simp [NoSlash]) (Nat.lt_succ_self _)
  rw [absPathPure, canonPathInner, hloop, CanonPath.abs_eq]
  rfl

theorem normalise_slash (raw : Bytes) : normalise (47 :: raw) = normalise raw := by
  rw [normalise, splitPath_slash, List.foldl_cons, pushComponent_empty]
  rfl

/-- The components that are kept come from the path, and are names of files. -/
theorem fileName_normalise {raw : Bytes} (hnull : (0 : UInt8) ∉ raw) :
    ∀ c ∈ normalise raw, FileName c := by
  have hparts : ∀ c ∈ splitPath raw, (47 : UInt8) ∉ c ∧ (0 : UInt8) ∉ c := by
    intro c hc
    refine ⟨noSlash_splitPath raw c hc, fun hzero => hnull ?_⟩
    have hmem : (0 : UInt8) ∈ slashed (splitPath raw) :=
      List.mem_flatMap.mpr ⟨c, hc, List.mem_cons_of_mem _ hzero⟩
    rw [slashed_splitPath] at hmem
    exact (List.mem_cons.mp hmem).resolve_left (by decide)
  have hgo : ∀ (parts stack : List Name), (∀ c ∈ parts, (47 : UInt8) ∉ c ∧ (0 : UInt8) ∉ c) →
      (∀ c ∈ stack, FileName c) → ∀ c ∈ parts.foldl pushComponent stack, FileName c := by
    intro parts
    induction parts with
    | nil => exact fun stack _ hstack => hstack
    | cons part parts ih =>
        intro stack hparts hstack
        refine ih _ (fun c hc => hparts c (List.mem_cons_of_mem _ hc)) fun c hc => ?_
        unfold pushComponent at hc
        split at hc
        · exact hstack c hc
        · rename_i hdot
          split at hc
          · exact hstack c (List.mem_of_mem_dropLast hc)
          · rename_i hup
            rcases List.mem_append.mp hc with hold | hnew
            · exact hstack c hold
            · rw [List.mem_singleton.mp hnew]
              exact ⟨fun heq => hdot (Or.inl heq), fun heq => hdot (Or.inr heq), hup,
                (hparts part (by simp)).1, (hparts part (by simp)).2⟩
  exact hgo _ [] hparts (by simp)

theorem ofRaw_eq {raw : Bytes} (hnull : (0 : UInt8) ∉ raw) :
    ofRaw raw = .ok (ofNames (normalise raw)) := by
  rw [ofRaw, ensureNoNullBytes, if_neg hnull, show str "/" ++ raw = 47 :: raw from rfl,
    absPathPure_eq, normalise_slash]
  rfl

theorem ofRaw_null {raw : Bytes} (hnull : (0 : UInt8) ∈ raw) : ∃ e, ofRaw raw = .error e := by
  rw [ofRaw, ensureNoNullBytes, if_pos hnull]
  exact ⟨_, rfl⟩

/-- A canonical path is its own canonical form. -/
theorem normalise_ofNames {names : List Name} (h : ∀ c ∈ names, FileName c) :
    normalise (ofNames names).path = names := by
  cases names with
  | nil => rfl
  | cons name names =>
      rw [path_ofNames_cons, normalise, splitPath_slashed (noSlash_of_fileName h), List.foldl_cons,
        pushComponent_empty, foldl_pushComponent h, List.nil_append]

theorem Canonical.ofRaw_eq {p : CanonString} (h : p.Canonical) : ofRaw p.path = .ok p := by
  obtain ⟨names, hnames, rfl⟩ := canonical_iff.mp h
  rw [CanonString.ofRaw_eq h.noNull, normalise_ofNames hnames]

theorem ofRawIn_eq {raw : Bytes} (hnull : (0 : UInt8) ∉ raw) {base : CanonString}
    (hbase : base.Canonical) : ofRawIn raw base =
      if raw.head? = some 47 then ofRaw raw else ofRaw (base.path ++ str "/" ++ raw) := by
  rw [ofRawIn, ensureNoNullBytes, if_neg hnull]
  split
  · rw [ofRaw_eq hnull, absPathPure_eq]
    rfl
  · have hnull' : (0 : UInt8) ∉ base.path ++ str "/" ++ raw := by
      simp only [List.mem_append, not_or]
      exact ⟨⟨hbase.noNull, by decide⟩, hnull⟩
    rw [ofRaw_eq hnull', absPathPure_eq]
    rfl

/-- What `fromFilename` accepts. -/
theorem fromFilename_iff (segment : Bytes) :
    (∃ p, fromFilename segment = .ok p) ↔ FileName segment := by
  by_cases hnull : (0 : UInt8) ∈ segment
  · obtain ⟨e, he⟩ := ofRaw_null hnull
    constructor
    · rintro ⟨p, hp⟩
      rw [fromFilename, he] at hp
      cases hp
    · exact fun h => absurd hnull h.noNull
  · have hnames := fileName_normalise hnull
    rw [fromFilename, ofRaw_eq hnull]
    simp only [bind, Except.bind, segments_ofNames hnames]
    constructor
    · rintro ⟨p, hp⟩
      split at hp
      · cases hp
      · rename_i hcheck
        simp only [not_or, not_not] at hcheck
        obtain ⟨name, hname⟩ := List.length_eq_one_iff.mp hcheck.2
        rw [hname, rel, path_ofNames_cons] at hcheck
        rw [hname] at hnames
        have hself : segment = name := by simpa using hcheck.1
        rw [hself]
        exact hnames name (by simp)
    · intro h
      have hself : normalise segment = [segment] := by
        rw [normalise, splitPath, List.splitOn_eq_singleton h.noSlash]
        exact foldl_pushComponent (show ∀ c ∈ [segment], FileName c by simpa using h) []
      refine ⟨ofNames [segment], ?_⟩
      rw [hself, if_neg]
      · rfl
      · rw [rel, path_ofNames_cons]
        simp

/-- Construction is lexical normalisation. -/
theorem construction_normalises {raw : Bytes} (hnull : (0 : UInt8) ∉ raw) :
    (∃ p, ofRaw raw = .ok p ∧ p.path = CanonPath.abs (normalise raw) ∧ p.Canonical ∧
      ofRaw p.path = .ok p) ∧
    (∀ base : CanonString, base.Canonical → ofRawIn raw base =
      if raw.head? = some 47 then ofRaw raw else ofRaw (base.path ++ str "/" ++ raw)) ∧
    ∀ segment, (∃ p, fromFilename segment = .ok p) ↔
      segment ≠ [] ∧ (0 : UInt8) ∉ segment ∧ (47 : UInt8) ∉ segment ∧
        segment ≠ str "." ∧ segment ≠ str ".." := by
  have hcanonical := canonical_ofNames (fileName_normalise hnull)
  refine ⟨⟨_, ofRaw_eq hnull, rfl, hcanonical, hcanonical.ofRaw_eq⟩,
    fun base hbase => ofRawIn_eq hnull hbase, fun segment => ?_⟩
  rw [fromFilename_iff]
  exact ⟨fun h => ⟨h.ne_nil, h.noNull, h.noSlash, h.ne_dot, h.ne_up⟩,
    fun ⟨hne, hnull, hslash, hdot, hup⟩ => ⟨hne, hdot, hup, hslash, hnull⟩⟩

/-- Dots, repeated slashes and one `..` too many. -/
theorem construction_normalises_dots :
    (0 : UInt8) ∉ str "a//./b/../../../c/" ∧
    ∃ p, ofRaw (str "a//./b/../../../c/") = .ok p ∧ p.path = str "/c" := by
  have hnull : (0 : UInt8) ∉ str "a//./b/../../../c/" := by decide
  obtain ⟨⟨p, hp, hpath, -⟩, -⟩ := construction_normalises hnull
  refine ⟨hnull, p, hp, ?_⟩
  rw [hpath]
  decide

end CanonString

end Util
end Archinix
