import Archinix.Util.CanonPathAlgebra

/-!
# The order of canonical paths

`CanonPath::operator<=>` compares characters with the slash in the place of the
smallest.  Plain `char` is signed, so the characters from 128 on are smaller still:
the order is total, but a directory is followed directly by its contents only where
no such character comes in between (`sorted_blocks_iff`).
-/

namespace Archinix
namespace Util
namespace CanonString

/-- A `char` as a number: it is signed. -/
def signedChar (c : UInt8) : Int := if c.toNat < 128 then c.toNat else c.toNat - 256

/-- What a character is compared as. -/
def charKey (c : UInt8) : Int := if c = 47 then 0 else signedChar c

/-- The loop of `operator<=>`. -/
def compareChars : Bytes → Bytes → Ordering
  | [], [] => .eq
  | [], _ :: _ => .lt
  | _ :: _, [] => .gt
  | c :: s, d :: t =>
      let cmp := compare (charKey c) (charKey d)
      if cmp ≠ .eq then cmp else compareChars s t

/-- `operator<=>`. -/
def compareTo (p x : CanonString) : Ordering := compareChars p.path x.path

/-! ## A total order -/

theorem compareChars_eq (s t : Bytes) :
    compareChars s t = List.compareLex (compareOn charKey) s t := by
  induction s generalizing t with
  | nil => cases t <;> rfl
  | cons c s ih =>
      cases t with
      | nil => rfl
      | cons d t =>
          rw [List.compareLex_cons_cons, compareChars, ih, compareOn]
          cases compare (charKey c) (charKey d) <;> rfl

instance : Std.TransCmp compareTo where
  eq_swap {p x} := by
    rw [compareTo, compareTo, compareChars_eq, compareChars_eq]
    exact Std.OrientedCmp.eq_swap
  isLE_trans {p x y} hp hx := by
    rw [compareTo, compareChars_eq] at hp hx ⊢
    exact Std.TransCmp.isLE_trans hp hx

/-- But for the null character, which no path contains, no two characters compare
equal. -/
theorem charKey_injective {c d : UInt8} (hc : c ≠ 0) (hd : d ≠ 0) (h : charKey c = charKey d) :
    c = d := by
  have hbound := c.toNat_lt
  have hbound' := d.toNat_lt
  have hc' : c.toNat ≠ 0 := fun heq => hc (UInt8.toNat_inj.mp heq)
  have hd' : d.toNat ≠ 0 := fun heq => hd (UInt8.toNat_inj.mp heq)
  unfold charKey signedChar at h
  apply UInt8.toNat_inj.mp
  by_cases hslash : c = 47 <;> by_cases hslash' : d = 47
  · rw [hslash, hslash']
  · rw [if_pos hslash, if_neg hslash'] at h
    split at h <;> omega
  · rw [if_neg hslash, if_pos hslash'] at h
    split at h <;> omega
  · rw [if_neg hslash, if_neg hslash'] at h
    split at h <;> split at h <;> omega

theorem charKey_slash : charKey 47 = 0 := rfl

/-- The characters below the slash. -/
theorem charKey_neg_iff {c : UInt8} : charKey c < 0 ↔ 128 ≤ c := by
  have hbound := c.toNat_lt
  rw [UInt8.le_iff_toNat_le, show (128 : UInt8).toNat = 128 from rfl]
  unfold charKey signedChar
  split
  · rename_i hslash
    rw [hslash, show (47 : UInt8).toNat = 47 from rfl]
    omega
  · split <;> omega

theorem compareChars_eq_eq {s t : Bytes} (hs : (0 : UInt8) ∉ s) (ht : (0 : UInt8) ∉ t) :
    compareChars s t = .eq ↔ s = t := by
  induction s generalizing t with
  | nil => cases t <;> simp [compareChars]
  | cons c s ih =>
      cases t with
      | nil => simp [compareChars]
      | cons d t =>
          simp only [List.mem_cons, not_or] at hs ht
          have hrest := ih hs.2 ht.2
          rw [compareChars]
          by_cases hcmp : compare (charKey c) (charKey d) = .eq
          · rw [if_neg (not_not.mpr hcmp), hrest,
              charKey_injective (Ne.symm hs.1) (Ne.symm ht.1) (compare_eq_iff_eq.mp hcmp)]
            simp
          · have hne : c ≠ d := by
              rintro rfl
              exact hcmp (compare_eq_iff_eq.mpr rfl)
            rw [if_pos hcmp]
            simp [hcmp, hne]

theorem compareTo_eq_eq {p x : CanonString} (hp : p.Canonical) (hx : x.Canonical) :
    compareTo p x = .eq ↔ p = x := by
  rw [compareTo, compareChars_eq_eq hp.noNull hx.noNull]
  rcases p with ⟨path⟩
  rcases x with ⟨path'⟩
  simp

/-! ## Descendants -/

/-- The components of the second path go on from those of the first. -/
def Descendant (p d : CanonString) : Prop := p.segments <+: d.segments ∧ d ≠ p

theorem descendant_iff {p d : CanonString} (hp : p.Canonical) (hd : d.Canonical) :
    Descendant p d ↔ ∃ name names, p.segments ++ name :: names = d.segments := by
  obtain ⟨ps, hps, rfl⟩ := canonical_iff.mp hp
  obtain ⟨ds, hds, rfl⟩ := canonical_iff.mp hd
  rw [Descendant, segments_ofNames hps, segments_ofNames hds]
  constructor
  · rintro ⟨⟨names, rfl⟩, hne⟩
    cases names with
    | nil => exact absurd (by rw [List.append_nil]) hne
    | cons name names => exact ⟨name, names, rfl⟩
  · rintro ⟨name, names, rfl⟩
    refine ⟨List.prefix_append _ _, fun heq => ?_⟩
    have hsegments := congrArg segments heq
    rw [segments_ofNames hps, segments_ofNames hds] at hsegments
    have hlen := congrArg List.length hsegments
    rw [List.length_append, List.length_cons] at hlen
    omega

/-- Below a path other than the root, descendants go on with a slash. -/
theorem descendant_path_iff {p d : CanonString} (hp : p.Canonical) (hd : d.Canonical)
    (hroot : p ≠ root) : Descendant p d ↔ ∃ rest, d.path = p.path ++ 47 :: rest := by
  obtain ⟨ps, hps, rfl⟩ := canonical_iff.mp hp
  obtain ⟨ds, hds, rfl⟩ := canonical_iff.mp hd
  have hne : ps ≠ [] := by
    rintro rfl
    exact hroot rfl
  rw [descendant_iff hp hd, segments_ofNames hps, segments_ofNames hds]
  constructor
  · rintro ⟨name, names, rfl⟩
    rw [path_ofNames_append hne, slashed_cons]
    exact ⟨_, rfl⟩
  · rintro ⟨rest, hrest⟩
    have hsplit : splitPath (ofNames ps).path = [] :: ps := by
      obtain ⟨name, names, rfl⟩ := List.exists_cons_of_ne_nil hne
      exact splitPath_slashed (noSlash_of_fileName hps)
    have hds' : ds ≠ [] := by
      rintro rfl
      have hlen := congrArg List.length hrest
      rw [path_ofNames hne, List.length_append, List.length_cons] at hlen
      have hpos := List.length_pos_of_ne_nil fun h => hne (slashed_eq_nil.mp h)
      simp [root, str] at hlen
      omega
    have hsplit' : splitPath (ofNames ds).path = [] :: ds := by
      obtain ⟨name, names, rfl⟩ := List.exists_cons_of_ne_nil hds'
      exact splitPath_slashed (noSlash_of_fileName hds)
    rw [hrest, splitPath_append_slash, hsplit, List.cons_append] at hsplit'
    obtain ⟨name, names, hnames⟩ := List.exists_cons_of_ne_nil (List.splitOn_ne_nil 47 rest)
    refine ⟨name, names, ?_⟩
    rw [← (List.cons.inj hsplit').2]
    congr 1
    exact hnames.symm

theorem descendant_root {d : CanonString} (hne : d ≠ root) : Descendant root d :=
  ⟨List.nil_prefix, hne⟩

/-! ## What comes in between -/

/-- A text is before what it begins. -/
theorem compareChars_append (s : Bytes) (c : UInt8) (t : Bytes) : compareChars s (s ++ c :: t) = .lt := by
  induction s with
  | nil => rfl
  | cons d s ih =>
      rw [List.cons_append, compareChars, if_neg (not_not.mpr (compare_eq_iff_eq.mpr rfl)), ih]

theorem compareChars_append_append (s t u : Bytes) :
    compareChars (s ++ t) (s ++ u) = compareChars t u := by
  induction s with
  | nil => rfl
  | cons d s ih =>
      rw [List.cons_append, List.cons_append, compareChars,
        if_neg (not_not.mpr (compare_eq_iff_eq.mpr rfl)), ih]

/-- What is after a text but before it with a slash begins with the text, and goes on
with a character not greater than the slash. -/
theorem between_slash {s x t : Bytes} (hs : (0 : UInt8) ∉ s) (hx : (0 : UInt8) ∉ x)
    (hlow : compareChars s x = .lt) (hhigh : compareChars x (s ++ 47 :: t) = .lt) :
    ∃ c rest, x = s ++ c :: rest ∧ (128 ≤ c ∨ c = 47) := by
  induction s generalizing x with
  | nil =>
      cases x with
      | nil => cases hlow
      | cons c rest =>
          refine ⟨c, rest, rfl, ?_⟩
          rw [List.nil_append, compareChars, charKey_slash] at hhigh
          simp only [List.mem_cons, not_or] at hx
          by_cases hcmp : compare (charKey c) 0 = .eq
          · exact Or.inr (charKey_injective (Ne.symm hx.1) (by decide) (compare_eq_iff_eq.mp hcmp))
          · rw [if_pos hcmp] at hhigh
            exact Or.inl (charKey_neg_iff.mp (compare_lt_iff_lt.mp hhigh))
  | cons d s ih =>
      cases x with
      | nil => cases hlow
      | cons c x =>
          simp only [List.mem_cons, not_or] at hs hx
          rw [compareChars] at hlow
          rw [List.cons_append, compareChars] at hhigh
          by_cases hcmp : compare (charKey d) (charKey c) = .eq
          · have heq := charKey_injective (Ne.symm hs.1) (Ne.symm hx.1) (compare_eq_iff_eq.mp hcmp)
            subst heq
            rw [if_neg (not_not.mpr (compare_eq_iff_eq.mpr rfl))] at hlow hhigh
            obtain ⟨c, rest, hrest, hc⟩ := ih hs.2 hx.2 hlow hhigh
            exact ⟨c, rest, by rw [hrest, List.cons_append], hc⟩
          · -- the first characters cannot differ in both directions
            rw [if_pos hcmp] at hlow
            have hlt := compare_lt_iff_lt.mp hlow
            have hgt : compare (charKey c) (charKey d) = .gt := compare_gt_iff_gt.mpr hlt
            rw [hgt] at hhigh
            cases hhigh

/-! ## Sorted sets -/

/-- A sorted set of paths: canonical, and each before those that follow. -/
structure Sorted (l : List CanonString) : Prop where
  canonical : ∀ p ∈ l, p.Canonical
  sorted : l.Pairwise fun p x => compareTo p x = .lt

/-- Each path is followed immediately by all its descendants in the set. -/
def Blocks (l : List CanonString) : Prop :=
  ∀ before p after, l = before ++ p :: after → ∃ block rest, after = block ++ rest ∧
    (∀ d ∈ block, Descendant p d) ∧ ∀ x ∈ before ++ rest, ¬ Descendant p x

/-- A path of the set with a descendant in it is not the beginning of the text of
another that goes on with a character from 128 on. -/
def NoHighSibling (l : List CanonString) : Prop :=
  ∀ p ∈ l, p ≠ root → (∃ d ∈ l, Descendant p d) →
    ∀ x ∈ l, ∀ c rest, x.path = p.path ++ c :: rest → c < 128

theorem compareTo_descendant {p d : CanonString} (hp : p.Canonical) (hd : d.Canonical)
    (h : Descendant p d) : compareTo p d = .lt := by
  by_cases hroot : p = root
  · subst hroot
    obtain ⟨rest, hrest⟩ := List.head?_eq_some_iff.mp hd.starts
    cases rest with
    | nil =>
        rcases d with ⟨path⟩
        exact absurd (congrArg CanonString.mk hrest) h.2
    | cons c rest =>
        rw [compareTo, hrest]
        exact compareChars_append (str "/") c rest
  · obtain ⟨rest, hrest⟩ := (descendant_path_iff hp hd hroot).mp h
    rw [compareTo, hrest]
    exact compareChars_append _ _ _

/-- What is neither a path nor below it, but between the two. -/
theorem between_descendant {p x d : CanonString} (hp : p.Canonical) (hx : x.Canonical)
    (hd : d.Canonical) (hdesc : Descendant p d) (hpx : compareTo p x = .lt)
    (hxd : compareTo x d = .lt) (hnot : ¬ Descendant p x) :
    p ≠ root ∧ ∃ c rest, x.path = p.path ++ c :: rest ∧ 128 ≤ c := by
  have hroot : p ≠ root := by
    rintro rfl
    refine hnot (descendant_root ?_)
    rintro rfl
    cases hpx
  obtain ⟨t, ht⟩ := (descendant_path_iff hp hd hroot).mp hdesc
  rw [compareTo] at hpx hxd
  rw [ht] at hxd
  obtain ⟨c, rest, hrest, hc⟩ := between_slash hp.noNull hx.noNull hpx hxd
  refine ⟨hroot, c, rest, hrest, hc.resolve_right ?_⟩
  rintro rfl
  exact hnot ((descendant_path_iff hp hx hroot).mpr ⟨rest, hrest⟩)

theorem not_compareTo_self {p : CanonString} (hp : p.Canonical) : compareTo p p ≠ .lt := by
  rw [(compareTo_eq_eq hp hp).mpr rfl]
  decide

/-- What is after a path of a sorted set stands behind it. -/
theorem Sorted.mem_after {before after : List CanonString} {p y : CanonString}
    (h : Sorted (before ++ p :: after)) (hy : y ∈ before ++ p :: after)
    (hlt : compareTo p y = .lt) : y ∈ after := by
  have hsorted := List.pairwise_append.mp h.sorted
  rcases List.mem_append.mp hy with hbefore | hrest
  · have hgt := hsorted.2.2 y hbefore p List.mem_cons_self
    exact absurd (Std.TransCmp.lt_trans hgt hlt) (not_compareTo_self (h.canonical y hy))
  · rcases List.mem_cons.mp hrest with rfl | hmem
    · exact absurd hlt (not_compareTo_self (h.canonical y hy))
    · exact hmem

/-- A sibling that goes on with a character from 128 on is before the descendants. -/
theorem high_lt_descendant {p x d : CanonString} {c : UInt8} {rest : Bytes} (hp : p.Canonical)
    (hd : d.Canonical) (hroot : p ≠ root) (hdesc : Descendant p d)
    (hx : x.path = p.path ++ c :: rest) (hc : 128 ≤ c) : compareTo x d = .lt := by
  obtain ⟨t, ht⟩ := (descendant_path_iff hp hd hroot).mp hdesc
  have hcmp : compare (charKey c) 0 = .lt := compare_lt_iff_lt.mpr (charKey_neg_iff.mpr hc)
  rw [compareTo, hx, ht, compareChars_append_append, compareChars, charKey_slash, hcmp]
  rfl

theorem not_descendant_high {p x : CanonString} {c : UInt8} {rest : Bytes} (hp : p.Canonical)
    (hcx : x.Canonical) (hroot : p ≠ root) (hx : x.path = p.path ++ c :: rest) (hc : 128 ≤ c) :
    ¬ Descendant p x := by
  intro hdesc
  obtain ⟨t, ht⟩ := (descendant_path_iff hp hcx hroot).mp hdesc
  rw [hx] at ht
  have hslash := (List.cons.inj (List.append_cancel_left ht)).1
  rw [hslash] at hc
  exact absurd hc (by decide)

theorem noHighSibling_of_blocks {l : List CanonString} (h : Sorted l) (hblocks : Blocks l) :
    NoHighSibling l := by
  intro p hp hroot ⟨d, hd, hdesc⟩ x hx c rest hrest
  by_contra hhigh
  have hc : 128 ≤ c := UInt8.not_lt.mp hhigh
  have hcp := h.canonical p hp
  have hcd := h.canonical d hd
  have hcx := h.canonical x hx
  have hpx : compareTo p x = .lt := by
    rw [compareTo, hrest]
    exact compareChars_append _ _ _
  obtain ⟨before, after, rfl⟩ := List.append_of_mem hp
  obtain ⟨block, others, rfl, hblock, hothers⟩ := hblocks before p after rfl
  have hxOthers : x ∈ others :=
    (List.mem_append.mp (h.mem_after hx hpx)).resolve_left fun hmem =>
      not_descendant_high hcp hcx hroot hrest hc (hblock x hmem)
  have hdBlock : d ∈ block :=
    (List.mem_append.mp (h.mem_after hd (compareTo_descendant hcp hcd hdesc))).resolve_right
      fun hmem => hothers d (List.mem_append_right _ hmem) hdesc
  -- the block is before the others, but the sibling before the descendant
  have hbehind := (List.pairwise_cons.mp (List.pairwise_append.mp h.sorted).2.1).2
  have hdx := (List.pairwise_append.mp hbehind).2.2 d hdBlock x hxOthers
  have hxd := high_lt_descendant hcp hcd hroot hdesc hrest hc
  exact not_compareTo_self hcx (Std.TransCmp.lt_trans hxd hdx)

theorem blocks_of_noHighSibling {l : List CanonString} (h : Sorted l) (hcond : NoHighSibling l) :
    Blocks l := by
  rintro before p after rfl
  have hcp := h.canonical p (by simp)
  have hsorted := List.pairwise_append.mp h.sorted
  have hbehind := List.pairwise_cons.mp hsorted.2.1
  have hcAfter : ∀ y ∈ after, y.Canonical := fun y hy => h.canonical y (by simp [hy])
  classical
  have hsub : (after.dropWhile fun d => Descendant p d) <:+ after := List.dropWhile_suffix _
  refine ⟨after.takeWhile fun d => Descendant p d, after.dropWhile fun d => Descendant p d,
    List.takeWhile_append_dropWhile.symm, fun d hd => ?_, fun x hx hdesc => ?_⟩
  · simpa using List.mem_takeWhile_imp hd
  · rcases List.mem_append.mp hx with hbefore | hrest
    · have hcx := h.canonical x (by simp [hbefore])
      have hxp := hsorted.2.2 x hbefore p List.mem_cons_self
      exact not_compareTo_self hcx
        (Std.TransCmp.lt_trans hxp (compareTo_descendant hcp hcx hdesc))
    · -- the first path that is no descendant stands between
      rcases hdrop : after.dropWhile fun d => Descendant p d with - | ⟨y, ys⟩
      · rw [hdrop] at hrest
        cases hrest
      · have hy : ¬ Descendant p y := by
          have hhead := List.head_dropWhile_not (fun d => decide (Descendant p d))
            (l := after) (by rw [hdrop]; simp)
          simpa [hdrop] using hhead
        rw [hdrop] at hsub hrest
        have hyAfter : y ∈ after := hsub.subset List.mem_cons_self
        have hxAfter : x ∈ after := hsub.subset hrest
        have hyx : compareTo y x = .lt := by
          rcases List.mem_cons.mp hrest with rfl | hlater
          · exact absurd hdesc hy
          · exact (List.pairwise_cons.mp (hbehind.2.sublist hsub.sublist)).1 x hlater
        obtain ⟨hroot, c, rest, hpath, hc⟩ := between_descendant hcp (hcAfter y hyAfter)
          (hcAfter x hxAfter) hdesc (hbehind.1 y hyAfter) hyx hy
        have hlow := hcond p (by simp) hroot ⟨x, by simp [hxAfter], hdesc⟩ y
          (by simp [hyAfter]) c rest hpath
        exact absurd hlow (UInt8.not_lt.mpr hc)

/-- `operator<=>` orders the canonical paths totally; in a sorted set directories are
followed by their contents exactly where no sibling goes on with a character from 128
on. -/
theorem sorted_blocks_iff {l : List CanonString} (h : Sorted l) :
    (∀ p x, compareTo p x = (compareTo x p).swap) ∧
    (∀ p x y, (compareTo p x).isLE → (compareTo x y).isLE → (compareTo p y).isLE) ∧
    (∀ p x, p.Canonical → x.Canonical → (compareTo p x = .eq ↔ p = x)) ∧
    (Blocks l ↔ NoHighSibling l) :=
  ⟨fun _ _ => Std.OrientedCmp.eq_swap, fun _ _ _ => Std.TransCmp.isLE_trans,
    fun _ _ => compareTo_eq_eq, noHighSibling_of_blocks h, blocks_of_noHighSibling h⟩

theorem sorted_foo : Sorted [ofNames [str "foo"], ofNames [str "foo", str "bar"], ofNames [str "foo!"]] := by
  have hfoo : FileName (str "foo") := by constructor <;> decide +kernel
  have hbar : FileName (str "bar") := by constructor <;> decide +kernel
  have hbang : FileName (str "foo!") := by constructor <;> decide +kernel
  refine ⟨fun p hp => ?_, by decide +kernel⟩
  simp only [List.mem_cons, List.not_mem_nil, or_false] at hp
  rcases hp with rfl | rfl | rfl
  · exact canonical_ofNames (by simpa using hfoo)
  · exact canonical_ofNames (by simpa using ⟨hfoo, hbar⟩)
  · exact canonical_ofNames (by simpa using hbang)

/-- `foo < foo/bar < foo!`. -/
theorem sorted_blocks_foo :
    Blocks [ofNames [str "foo"], ofNames [str "foo", str "bar"], ofNames [str "foo!"]] ↔
      NoHighSibling [ofNames [str "foo"], ofNames [str "foo", str "bar"], ofNames [str "foo!"]] :=
  (sorted_blocks_iff sorted_foo).2.2.2

/-- But `foo < foo\x80 < foo/bar`. -/
theorem high_sibling_between :
    Sorted [ofNames [str "foo"], ofNames [str "foo" ++ [128]], ofNames [str "foo", str "bar"]] ∧
    Descendant (ofNames [str "foo"]) (ofNames [str "foo", str "bar"]) ∧
    ¬ Descendant (ofNames [str "foo"]) (ofNames [str "foo" ++ [128]]) ∧
    ¬ Blocks [ofNames [str "foo"], ofNames [str "foo" ++ [128]], ofNames [str "foo", str "bar"]] := by
  have hfoo : FileName (str "foo") := by constructor <;> decide +kernel
  have hhigh : FileName (str "foo" ++ [128]) := by constructor <;> decide +kernel
  have hbar : FileName (str "bar") := by constructor <;> decide +kernel
  have hsorted : Sorted
      [ofNames [str "foo"], ofNames [str "foo" ++ [128]], ofNames [str "foo", str "bar"]] := by
    refine ⟨fun p hp => ?_, by decide +kernel⟩
    simp only [List.mem_cons, List.not_mem_nil, or_false] at hp
    rcases hp with rfl | rfl | rfl
    · exact canonical_ofNames (by simpa using hfoo)
    · exact canonical_ofNames (by simpa using hhigh)
    · exact canonical_ofNames (by simpa using ⟨hfoo, hbar⟩)
  have hdesc : Descendant (ofNames [str "foo"]) (ofNames [str "foo", str "bar"]) := by
    constructor <;> decide +kernel
  refine ⟨hsorted, hdesc, fun h => absurd h.1 (by decide +kernel), fun hblocks => ?_⟩
  have hlow := noHighSibling_of_blocks hsorted hblocks (ofNames [str "foo"]) List.mem_cons_self
    (by decide +kernel) ⟨_, by simp, hdesc⟩ (ofNames [str "foo" ++ [128]]) (by simp) 128 []
    (by decide +kernel)
  exact absurd hlow (by decide)

end CanonString
end Util
end Archinix
