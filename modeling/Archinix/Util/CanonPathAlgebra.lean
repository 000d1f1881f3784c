import Archinix.Util.CanonPath

/-!
# The algebra of canonical paths

On canonical paths the operations of `CanonPath` are those of lists of names:
concatenation, the last name and the names before it, and prefixes.  All keep the
invariants but `push`, which takes an empty component for one.
-/

namespace Archinix
namespace Util
namespace CanonString

variable {names names' : List Name}

/-! ## Operations on lists of names -/

theorem isRoot_ofNames (h : ∀ c ∈ names, FileName c) : (ofNames names).isRoot = true ↔ names = [] := by
  cases names with
  | nil => simp [isRoot, root, str]
  | cons name names =>
      have hpos := List.length_pos_of_ne_nil (h name (by simp)).ne_nil
      simp only [isRoot, path_ofNames_cons, slashed_cons, List.length_cons, List.length_append,
        decide_eq_true_eq, reduceCtorEq, iff_false]
      omega

theorem isRoot_ofNames_eq_false (h : ∀ c ∈ names, FileName c) (hne : names ≠ []) :
    (ofNames names).isRoot = false :=
  Bool.eq_false_iff.mpr fun hroot => hne ((isRoot_ofNames h).mp hroot)

/-- A path with something below it. -/
theorem path_ofNames_append (hne : names ≠ []) :
    (ofNames (names ++ names')).path = (ofNames names).path ++ slashed names' := by
  rw [path_ofNames (by simp [hne]), path_ofNames hne, slashed_append]

theorem append_ofNames (h : ∀ c ∈ names, FileName c) (h' : ∀ c ∈ names', FileName c) :
    (ofNames names).append (ofNames names') = ofNames (names ++ names') := by
  unfold append extend
  by_cases hx : names' = []
  · rw [if_pos ((isRoot_ofNames h').mpr hx), hx, List.append_nil]
  · rw [isRoot_ofNames_eq_false h' hx, if_neg Bool.false_ne_true]
    by_cases hp : names = []
    · rw [if_pos ((isRoot_ofNames h).mpr hp), hp, List.nil_append, ofNames_nil]
      obtain ⟨name, more, rfl⟩ := List.exists_cons_of_ne_nil hx
      rfl
    · rw [isRoot_ofNames_eq_false h hp, if_neg Bool.false_ne_true, path_ofNames hx,
        ← path_ofNames_append hp]

theorem push_ofNames (h : ∀ c ∈ names, FileName c) {c : Name} (hc : FileName c) :
    (ofNames names).push c = some (.ok (ofNames (names ++ [c]))) := by
  have hpath : (if (ofNames names).isRoot then (ofNames names).path
      else (ofNames names).path ++ str "/") ++ c = (ofNames (names ++ [c])).path := by
    by_cases hnil : names = []
    · rw [if_pos ((isRoot_ofNames h).mpr hnil), hnil, List.nil_append, path_ofNames_cons]
      simp [root, str]
    · rw [isRoot_ofNames_eq_false h hnil, if_neg Bool.false_ne_true, path_ofNames_append hnil,
        List.append_assoc]
      simp [str]
  rw [push, if_neg hc.noSlash, if_neg (by simp [hc.ne_dot, hc.ne_up]), ensureNoNullBytes,
    if_neg hc.noNull, hpath]
  rfl

theorem upToLastSlash_ofNames (h : ∀ c ∈ names, FileName c) {c : Name} (hc : FileName c) :
    (ofNames (names ++ [c])).upToLastSlash = (ofNames names).path := by
  have hpath : (ofNames (names ++ [c])).path = slashed names ++ 47 :: c := by
    rw [path_ofNames (by simp), slashed_append]
    simp
  rw [upToLastSlash, hpath, rfind_append hc.noSlash]
  dsimp only
  by_cases hnil : names = []
  · subst hnil
    rfl
  · have hpos : 1 ≤ (slashed names).length :=
      List.length_pos_of_ne_nil fun hempty => hnil (slashed_eq_nil.mp hempty)
    rw [max_eq_right hpos, List.take_left, path_ofNames hnil]

theorem baseName_ofNames (h : ∀ c ∈ names, FileName c) {c : Name} (hc : FileName c) :
    (ofNames (names ++ [c])).baseName = some c := by
  have hall : ∀ c' ∈ names ++ [c], FileName c' := by
    intro c' hc'
    rcases List.mem_append.mp hc' with hmem | hmem
    · exact h c' hmem
    · rw [List.mem_singleton.mp hmem]
      exact hc
  have hpath : (ofNames (names ++ [c])).path = slashed names ++ 47 :: c := by
    rw [path_ofNames (by simp), slashed_append]
    simp
  rw [baseName, isRoot_ofNames_eq_false hall (by simp), if_neg Bool.false_ne_true, hpath,
    rfind_append hc.noSlash]
  dsimp only
  rw [← List.drop_drop, List.drop_left]
  rfl

theorem isWithin_iff {p parent : CanonString} : p.isWithin parent = true ↔
    parent.path.length ≤ p.path.length ∧ p.path.take parent.path.length = parent.path ∧
      (parent.path.length > 1 → p.path.length > parent.path.length →
        p.path[parent.path.length]? = some 47) := by
  rw [isWithin, decide_eq_true_eq]
  simp only [not_or, not_and, not_not, not_lt]

/-- `isWithin` compares text, and rejects a name that only begins like another. -/
theorem isWithin_ofNames (h : ∀ c ∈ names, FileName c) (h' : ∀ c ∈ names', FileName c) :
    (ofNames names).isWithin (ofNames names') = true ↔ names' <+: names := by
  rw [isWithin_iff]
  by_cases hnil : names' = []
  · subst hnil
    rw [ofNames_nil]
    have hstarts := (canonical_ofNames h).starts
    obtain ⟨rest, hrest⟩ := List.head?_eq_some_iff.mp hstarts
    refine iff_of_true ⟨?_, ?_, ?_⟩ (List.nil_prefix)
    · rw [hrest]
      simp [root, str]
    · rw [hrest]
      simp [root, str]
    · simp [root, str]
  · have hroot := isRoot_ofNames_eq_false h' hnil
    have hlong : (ofNames names').path.length > 1 := by
      simpa [isRoot] using hroot
    constructor
    · rintro ⟨hlen, htake, hnext⟩
      obtain ⟨rest, hrest⟩ : ∃ rest, (ofNames names).path = (ofNames names').path ++ rest :=
        ⟨_, by rw [← htake, List.take_append_drop]⟩
      -- the text goes on with a slash, or not at all
      have hsplit : splitPath (ofNames names).path = [] :: names := by
        cases names with
        | nil =>
            have hlen' := congrArg List.length hrest
            rw [List.length_append] at hlen'
            simp [root, str] at hlen'
            omega
        | cons name names => exact splitPath_slashed (noSlash_of_fileName h)
      have hsplit' : splitPath (ofNames names').path = [] :: names' := by
        obtain ⟨name, more, rfl⟩ := List.exists_cons_of_ne_nil hnil
        exact splitPath_slashed (noSlash_of_fileName h')
      rcases rest with - | ⟨c, rest⟩
      · rw [List.append_nil] at hrest
        rw [hrest, hsplit'] at hsplit
        rw [(List.cons.inj hsplit).2]
      · have hslash := hnext hlong (by rw [hrest]; simp)
        rw [hrest, List.getElem?_append_right (le_refl _), Nat.sub_self] at hslash
        obtain rfl : c = 47 := by simpa using hslash
        rw [hrest, splitPath_append_slash, hsplit', List.cons_append] at hsplit
        exact ⟨_, (List.cons.inj hsplit).2⟩
    · rintro ⟨more, rfl⟩
      rw [path_ofNames_append hnil]
      refine ⟨by simp, List.take_left, fun _ hlt => ?_⟩
      rw [List.getElem?_append_right (le_refl _), Nat.sub_self]
      cases more with
      | nil => simp at hlt
      | cons name more => simp

theorem removePrefix_ofNames (h : ∀ c ∈ names, FileName c) (h' : ∀ c ∈ names', FileName c) :
    (ofNames (names ++ names')).removePrefix (ofNames names) = some (ofNames names') := by
  have hall : ∀ c ∈ names ++ names', FileName c := fun c hc =>
    (List.mem_append.mp hc).elim (h c) (h' c)
  rw [removePrefix, if_pos ((isWithin_ofNames hall h).mpr (List.prefix_append _ _))]
  by_cases hnil : names = []
  · rw [if_pos ((isRoot_ofNames h).mpr hnil), hnil, List.nil_append]
  · rw [isRoot_ofNames_eq_false h hnil, if_neg Bool.false_ne_true, path_ofNames_append hnil]
    by_cases hmore : names' = []
    · rw [if_pos (by simp [hmore]), hmore, ofNames_nil]
    · have hpos : slashed names' ≠ [] := fun hempty => hmore (slashed_eq_nil.mp hempty)
      rw [if_neg (by simp [hpos]), List.drop_left, ← path_ofNames hmore]

theorem parent_ofNames (h : ∀ c ∈ names, FileName c) {c : Name} (hc : FileName c) :
    (ofNames (names ++ [c])).parent = some (ofNames names) := by
  have hall : ∀ c' ∈ names ++ [c], FileName c' := by
    simpa [or_imp, forall_and] using And.intro h hc
  rw [parent, isRoot_ofNames_eq_false hall (by simp), if_neg Bool.false_ne_true,
    upToLastSlash_ofNames h hc]

theorem pushAll_cons (p : CanonString) (c : Name) (elems : List Name) :
    pushAll (some (.ok p)) (c :: elems) = pushAll (p.push c) elems := rfl

/-- Pushing the components of a path onto another puts them behind it. -/
theorem pushAll_ofNames (h : ∀ c ∈ names, FileName c) (h' : ∀ c ∈ names', FileName c) :
    pushAll (some (.ok (ofNames names))) names' = some (.ok (ofNames (names ++ names'))) := by
  induction names' generalizing names with
  | nil => simp [pushAll]
  | cons c names' ih =>
      have hc := h' c (by simp)
      rw [pushAll_cons, push_ofNames h hc, ih (by simpa [or_imp, forall_and] using And.intro h hc)
        fun c' hc' => h' c' (List.mem_cons_of_mem _ hc')]
      simp

/-- The laws of concatenation, prefixes, parents and components. -/
theorem canonPath_laws {a b c p : CanonString} (ha : a.Canonical) (hb : b.Canonical)
    (hc : c.Canonical) (hp : p.Canonical) :
    (a.append b).removePrefix a = some b ∧
    (a.append b).append c = a.append (b.append c) ∧ root.append a = a ∧ a.append root = a ∧
    (p.isWithin a = true ↔ a.segments <+: p.segments) ∧
    (p.isRoot = false → ∃ q name, p.parent = some q ∧ p.baseName = some name ∧
      q.appendName name = some (.ok p)) ∧
    p.path = CanonPath.abs p.segments ∧ (∀ name ∈ p.segments, FileName name) ∧
    ofElems p.segments = some (.ok p) := by
  obtain ⟨as, has, rfl⟩ := canonical_iff.mp ha
  obtain ⟨bs, hbs, rfl⟩ := canonical_iff.mp hb
  obtain ⟨cs, hcs, rfl⟩ := canonical_iff.mp hc
  obtain ⟨names, hnames, rfl⟩ := canonical_iff.mp hp
  have hnil : ∀ name ∈ ([] : List Name), FileName name := by simp
  have hab : ∀ name ∈ as ++ bs, FileName name := fun name hname =>
    (List.mem_append.mp hname).elim (has name) (hbs name)
  have hbc : ∀ name ∈ bs ++ cs, FileName name := fun name hname =>
    (List.mem_append.mp hname).elim (hbs name) (hcs name)
  rw [segments_ofNames has, segments_ofNames hnames]
  refine ⟨?_, ?_, ?_, ?_, isWithin_ofNames hnames has, fun hroot => ?_, rfl, hnames, ?_⟩
  · rw [append_ofNames has hbs, removePrefix_ofNames has hbs]
  · rw [append_ofNames has hbs, append_ofNames hab hcs, append_ofNames hbs hcs,
      append_ofNames has hbc, List.append_assoc]
  · rw [← ofNames_nil, append_ofNames hnil has, List.nil_append]
  · rw [← ofNames_nil, append_ofNames has hnil, List.append_nil]
  · rcases List.eq_nil_or_concat' names with rfl | ⟨init, last, rfl⟩
    · cases hroot
    · have hinit : ∀ name ∈ init, FileName name := fun name hname => hnames name (by simp [hname])
      have hlast : FileName last := hnames last (by simp)
      exact ⟨ofNames init, last, parent_ofNames hinit hlast, baseName_ofNames hinit hlast,
        push_ofNames hinit hlast⟩
  · exact pushAll_ofNames hnil hnames

/-- A sibling whose name begins with another's is not within it. -/
theorem canonPath_laws_sibling :
    (ofNames [str "ab", str "c"]).Canonical ∧
    ofElems (ofNames [str "ab", str "c"]).segments = some (.ok (ofNames [str "ab", str "c"])) ∧
    (ofNames [str "ab", str "c"]).isWithin (ofNames [str "a"]) = false := by
  have hname : ∀ c ∈ [str "ab", str "c", str "a"], FileName c := by
    have hall : ∀ c ∈ [str "ab", str "c", str "a"], c ≠ [] ∧ c ≠ str "." ∧ c ≠ str ".." ∧
        (47 : UInt8) ∉ c ∧ (0 : UInt8) ∉ c := by decide +kernel
    exact fun c hc => ⟨(hall c hc).1, (hall c hc).2.1, (hall c hc).2.2.1, (hall c hc).2.2.2.1,
      (hall c hc).2.2.2.2⟩
  have hp := @canonical_ofNames [str "ab", str "c"] fun c hc => hname c (by simp at hc ⊢; tauto)
  have ha := @canonical_ofNames [str "a"] fun c hc => hname c (by simp at hc ⊢; tauto)
  obtain ⟨-, -, -, -, -, -, -, -, hrebuilt⟩ := canonPath_laws ha ha ha hp
  exact ⟨hp, hrebuilt, by decide +kernel⟩

/-! ## What keeps the invariants -/

/-- Something empty stands behind a slash: the string is not canonical. -/
def Broken (p : CanonString) : Prop := ∃ rest, p.path = 47 :: rest ∧ rest ≠ [] ∧ [] ∈ splitPath rest

theorem Broken.not_canonical {p : CanonString} (h : p.Broken) : ¬ p.Canonical := by
  intro hp
  obtain ⟨rest, hrest, hne, hempty⟩ := h
  obtain ⟨names, hnames, rfl⟩ := canonical_iff.mp hp
  by_cases hnil : names = []
  · rw [hnil] at hrest
    exact hne (List.cons.inj hrest).2.symm
  · rw [path_ofNames hnil] at hrest
    exact @not_empty_stretch _ hnames [] _ hrest hempty

/-- What `push` returns when it does. -/
theorem push_eq_ok {p q : CanonString} {c : Name} (h : p.push c = some (.ok q)) :
    (47 : UInt8) ∉ c ∧ c ≠ str "." ∧ c ≠ str ".." ∧ (0 : UInt8) ∉ c ∧
      q.path = (if p.isRoot then p.path else p.path ++ str "/") ++ c := by
  unfold push at h
  split at h
  · cases h
  · rename_i hslash
    split at h
    · cases h
    · rename_i hdots
      rw [not_or] at hdots
      rw [ensureNoNullBytes] at h
      split at h
      · cases h
      · rename_i hnull
        cases h
        exact ⟨hslash, hdots.1, hdots.2, hnull, rfl⟩

theorem push_fileName {p q : CanonString} {c : Name} (h : p.push c = some (.ok q)) (hne : c ≠ []) :
    FileName c := by
  obtain ⟨hslash, hdot, hup, hnull, -⟩ := push_eq_ok h
  exact ⟨hne, hdot, hup, hslash, hnull⟩

/-- Once broken, a path stays so. -/
theorem Broken.push {p q : CanonString} (h : p.Broken) {c : Name}
    (hpush : p.push c = some (.ok q)) : q.Broken := by
  obtain ⟨-, -, -, -, hpath⟩ := push_eq_ok hpush
  obtain ⟨rest, hrest, hne, hempty⟩ := h
  have hroot : p.isRoot = false := by
    have hpos := List.length_pos_of_ne_nil hne
    simp only [isRoot, hrest, List.length_cons, decide_eq_false_iff_not]
    omega
  rw [hroot, if_neg Bool.false_ne_true, hrest] at hpath
  refine ⟨rest ++ 47 :: c, by rw [hpath]; simp [str], by simp, ?_⟩
  rw [splitPath_append_slash]
  exact List.mem_append_left _ hempty

/-- An empty component pushed onto a path other than the root breaks it. -/
theorem broken_push_empty (h : ∀ c ∈ names, FileName c) (hne : names ≠ []) {q : CanonString}
    (hpush : (ofNames names).push [] = some (.ok q)) : q.Broken := by
  obtain ⟨-, -, -, -, hpath⟩ := push_eq_ok hpush
  obtain ⟨name, more, rfl⟩ := List.exists_cons_of_ne_nil hne
  rw [isRoot_ofNames_eq_false h hne, if_neg Bool.false_ne_true, path_ofNames_cons, slashed_cons]
    at hpath
  refine ⟨name ++ slashed more ++ [47], by rw [hpath]; simp [str], by simp, ?_⟩
  rw [splitPath_append_slash]
  simp [splitPath, List.splitOn_nil]

theorem push_empty_root : root.push [] = some (.ok root) := rfl

/-- `push` keeps the invariants of every component but an empty one below the root. -/
theorem push_canonical_iff {p : CanonString} (hp : p.Canonical) {c : Name} {q : CanonString}
    (hpush : p.push c = some (.ok q)) : q.Canonical ↔ c ≠ [] ∨ p = root := by
  obtain ⟨names, hnames, rfl⟩ := canonical_iff.mp hp
  by_cases hempty : c = []
  · subst hempty
    by_cases hnil : names = []
    · subst hnil
      rw [ofNames_nil, push_empty_root] at hpush
      cases hpush
      exact iff_of_true hp (Or.inr rfl)
    · have hbroken := broken_push_empty hnames hnil hpush
      have hroot : ofNames names ≠ root := fun heq => by
        have hisRoot := isRoot_ofNames_eq_false hnames hnil
        rw [heq] at hisRoot
        cases hisRoot
      exact iff_of_false hbroken.not_canonical (by simp [hroot])
  · have hc := push_fileName hpush hempty
    rw [push_ofNames hnames hc] at hpush
    cases hpush
    refine iff_of_true (canonical_ofNames ?_) (Or.inl hempty)
    simpa [or_imp, forall_and] using And.intro hnames hc

/-- A constructor that returns went on from every push. -/
theorem pushAll_eq_ok {r : Option (Except Error CanonString)} {elems : List Name} {q : CanonString}
    (h : pushAll r elems = some (.ok q)) : ∃ p, r = some (.ok p) := by
  induction elems generalizing r with
  | nil => exact ⟨q, h⟩
  | cons c elems ih =>
      obtain ⟨p, hp⟩ := ih h
      rcases r with - | e | p
      · cases hp
      · cases hp
      · exact ⟨p, rfl⟩

theorem Broken.pushAll {p q : CanonString} (h : p.Broken) {elems : List Name}
    (hpush : pushAll (some (.ok p)) elems = some (.ok q)) : q.Broken := by
  induction elems generalizing p with
  | nil =>
      cases hpush
      exact h
  | cons c elems ih =>
      rw [pushAll_cons] at hpush
      obtain ⟨p', hp'⟩ := pushAll_eq_ok hpush
      rw [hp'] at hpush
      exact ih (h.push hp') hpush

theorem pushAll_canonical_iff (h : ∀ c ∈ names, FileName c) (hne : names ≠ []) {elems : List Name}
    {q : CanonString} (hpush : pushAll (some (.ok (ofNames names))) elems = some (.ok q)) :
    q.Canonical ↔ [] ∉ elems := by
  induction elems generalizing names with
  | nil =>
      cases hpush
      exact iff_of_true (canonical_ofNames h) (by simp)
  | cons c elems ih =>
      rw [pushAll_cons] at hpush
      obtain ⟨p', hp'⟩ := pushAll_eq_ok hpush
      by_cases hempty : c = []
      · subst hempty
        rw [hp'] at hpush
        exact iff_of_false ((broken_push_empty h hne hp').pushAll hpush).not_canonical (by simp)
      · have hc := push_fileName hp' hempty
        rw [push_ofNames h hc] at hpush
        rw [ih (by simpa [or_imp, forall_and] using And.intro h hc) (by simp) hpush]
        simp [Ne.symm hempty]

/-- The constructor keeps the invariants unless an empty element follows a proper one. -/
theorem ofElems_canonical_iff {elems : List Name} {q : CanonString}
    (h : ofElems elems = some (.ok q)) : q.Canonical ↔ [] ∉ elems.dropWhile (· = []) := by
  rw [ofElems] at h
  induction elems with
  | nil =>
      cases h
      exact iff_of_true (@canonical_ofNames [] (by simp)) (by simp)
  | cons c elems ih =>
      by_cases hempty : c = []
      · subst hempty
        rw [pushAll_cons, push_empty_root] at h
        have hrest := ih h
        simpa using hrest
      · rw [pushAll_cons] at h
        obtain ⟨p', hp'⟩ := pushAll_eq_ok h
        have hc := push_fileName hp' hempty
        rw [← ofNames_nil, push_ofNames (by simp) hc] at h
        rw [pushAll_canonical_iff (by simpa using hc) (by simp) h]
        simp [hempty, Ne.symm hempty]

theorem append_canonical {p x : CanonString} (hp : p.Canonical) (hx : x.Canonical) :
    (p.append x).Canonical := by
  obtain ⟨names, hnames, rfl⟩ := canonical_iff.mp hp
  obtain ⟨names', hnames', rfl⟩ := canonical_iff.mp hx
  rw [append_ofNames hnames hnames']
  exact canonical_ofNames fun c hc => (List.mem_append.mp hc).elim (hnames c) (hnames' c)

theorem parent_canonical {p q : CanonString} (hp : p.Canonical) (h : p.parent = some q) :
    q.Canonical := by
  obtain ⟨names, hnames, rfl⟩ := canonical_iff.mp hp
  rcases List.eq_nil_or_concat' names with rfl | ⟨init, last, rfl⟩
  · cases h
  · have hinit : ∀ c ∈ init, FileName c := fun c hc => hnames c (by simp [hc])
    rw [parent_ofNames hinit (hnames last (by simp))] at h
    cases h
    exact canonical_ofNames hinit

theorem removePrefix_canonical {p front q : CanonString} (hp : p.Canonical)
    (hfront : front.Canonical) (h : p.removePrefix front = some q) : q.Canonical := by
  obtain ⟨names, hnames, rfl⟩ := canonical_iff.mp hp
  obtain ⟨names', hnames', rfl⟩ := canonical_iff.mp hfront
  by_cases hwithin : names' <+: names
  · obtain ⟨more, rfl⟩ := hwithin
    have hmore : ∀ c ∈ more, FileName c := fun c hc => hnames c (by simp [hc])
    rw [removePrefix_ofNames hnames' hmore] at h
    cases h
    exact canonical_ofNames hmore
  · rw [removePrefix, if_neg fun hw => hwithin ((isWithin_ofNames hnames hnames').mp hw)] at h
    cases h

/-- When the operations keep the class invariant: `push`, and what is built on it, for
any component that is not empty or stays at the root; the others always. -/
theorem operations_canonical_iff {p : CanonString} (hp : p.Canonical) :
    (∀ c q, p.push c = some (.ok q) → (q.Canonical ↔ c ≠ [] ∨ p = root)) ∧
    (∀ c q, p.appendName c = some (.ok q) → (q.Canonical ↔ c ≠ [] ∨ p = root)) ∧
    (∀ elems q, ofElems elems = some (.ok q) → (q.Canonical ↔ [] ∉ elems.dropWhile (· = []))) ∧
    (∀ x, x.Canonical → (p.append x).Canonical) ∧
    (∀ q, p.pop = some q → q.Canonical) ∧ (∀ q, p.parent = some q → q.Canonical) ∧
    ∀ front q, front.Canonical → p.removePrefix front = some q → q.Canonical :=
  ⟨fun _ _ hpush => push_canonical_iff hp hpush, fun _ _ hpush => push_canonical_iff hp hpush,
    fun _ _ h => ofElems_canonical_iff h, fun _ hx => append_canonical hp hx,
    fun _ h => parent_canonical hp h, fun _ h => parent_canonical hp h,
    fun _ _ hfront h => removePrefix_canonical hp hfront h⟩

/-- At the root. -/
theorem operations_canonical_root :
    root.Canonical ∧ root.push [] = some (.ok root) ∧ (root.Canonical ↔ ([] : Name) ≠ [] ∨ root = root) := by
  have hroot : root.Canonical := @canonical_ofNames [] (by simp)
  exact ⟨hroot, rfl, (operations_canonical_iff hroot).1 [] root rfl⟩

/-- `CanonPath("/a") / ""` is `/a/`. -/
theorem push_empty_not_canonical :
    (ofNames [str "a"]).Canonical ∧
    (ofNames [str "a"]).push [] = some (.ok ⟨str "/a/"⟩) ∧ ¬ (CanonString.mk (str "/a/")).Canonical := by
  have hname : FileName (str "a") := by constructor <;> decide +kernel
  refine ⟨canonical_ofNames (by simpa using hname), by decide +kernel, fun h => ?_⟩
  have htrailing := h.noTrailing (by decide +kernel)
  revert htrailing
  decide +kernel

end CanonString
end Util
end Archinix
