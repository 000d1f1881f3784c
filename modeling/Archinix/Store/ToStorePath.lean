import Archinix.Store.StorePath

/-!
# Splitting a path at its store path

`toStorePath` of `store-api.cc` cuts the raw path at a byte offset, `isInStore` compares
components, and `parseStorePath` makes the cut-off part canonical.  They agree with the
canonical form of the whole path for paths that begin with a printed store path and never
climb above it: `split_respects_canonicalisation_iff`.
-/

namespace Archinix
namespace Store

open Util

/-! ## Canonical paths are shorter -/

section Canonical

variable {path : Bytes} {names : List Name}

theorem canonStep_sublist (result : CanonPath) (comp : Name) : List.Sublist (canonStep result comp)
    (result ++ [comp]) := by
  unfold canonStep
  split
  · exact List.sublist_append_left _ _
  · split
    · exact (List.dropLast_sublist _).trans (List.sublist_append_left _ _)
    · exact List.Sublist.refl _

theorem foldl_canonStep_sublist (result : CanonPath) :
    List.Sublist (names.foldl canonStep result) (result ++ names) := by
  induction names generalizing result with
  | nil => simp
  | cons comp names ih =>
      refine (ih _).trans ?_
      rw [List.append_cons]
      exact (canonStep_sublist result comp).append_right names

theorem flatMap_splitSlash (rest : Bytes) : (splitSlash rest).flatMap (fun name => 47 :: name) = 47 :: rest := by
  induction rest with
  | nil => rfl
  | cons c rest ih =>
      rw [splitSlash]
      by_cases hc : c = 47
      · rw [if_pos hc, List.flatMap_cons, ih, hc]
        rfl
      · rw [if_neg hc]
        rcases hrest : splitSlash rest with - | ⟨name, names⟩
        · rw [hrest] at ih
          cases ih
        · rw [hrest, List.flatMap_cons] at ih
          rw [List.flatMap_cons, List.cons_append, List.cons_append]
          exact congrArg (fun s => 47 :: c :: s) (List.cons.inj ih).2

/-- The canonical form of an absolute path leaves out some of its bytes. -/
theorem canonPath_sublist (rest : Bytes) :
    List.Sublist ((canonPath (47 :: rest)).flatMap fun name => 47 :: name) (47 :: rest) := by
  have hnames : canonPath (47 :: rest) = (splitSlash rest).foldl canonStep [] := by
    rw [canonPath, splitSlash, if_pos rfl, List.foldl_cons]
    rfl
  have hnil : List.Sublist ((splitSlash rest).foldl canonStep []) ([] ++ splitSlash rest) :=
    foldl_canonStep_sublist []
  have hsub := hnil.flatMap fun name => 47 :: name
  rw [List.nil_append, flatMap_splitSlash] at hsub
  rw [hnames]
  exact hsub

theorem splitSlash_append_slash (before rest : Bytes) :
    splitSlash (before ++ 47 :: rest) = splitSlash before ++ splitSlash rest := by
  induction before with
  | nil => simp [splitSlash]
  | cons c before ih =>
      rw [List.cons_append, splitSlash, splitSlash]
      by_cases hc : c = 47
      · rw [if_pos hc, if_pos hc, ih, List.cons_append]
      · rw [if_neg hc, if_neg hc, ih]
        rcases hbefore : splitSlash before with - | ⟨name, names⟩
        · have hfull := flatMap_splitSlash before
          rw [hbefore] at hfull
          cases hfull
        · rfl

theorem exists_last_slash (h : (47 : UInt8) ∈ path) :
    ∃ before after, path = before ++ 47 :: after ∧ (47 : UInt8) ∉ after := by
  obtain ⟨after, before, hsplit, hafter⟩ := List.eq_append_cons_of_mem (List.mem_reverse.mpr h)
  refine ⟨before.reverse, after.reverse, ?_, by simpa using hafter⟩
  rw [← List.reverse_reverse path, hsplit]
  simp

/-- A path goes on from the canonical form of its first part. -/
theorem canonPath_append_slash (before rest : Bytes) :
    canonPath (before ++ 47 :: rest) = (splitSlash rest).foldl canonStep (canonPath before) := by
  rw [canonPath, splitSlash_append_slash, List.foldl_append]
  rfl

end Canonical

namespace StoreDirConfig

variable {cfg : StoreDirConfig} {path : Bytes} {p : StorePath}

theorem abs_storeDir (cfg : StoreDirConfig) :
    CanonPath.abs cfg.storeDir = cfg.storeDir.flatMap fun name => 47 :: name :=
  abs_of_ne_nil cfg.nonempty

theorem baseName_ofBaseName {baseName : Bytes} {hslash : (47 : UInt8) ∉ baseName}
    (h : StorePath.ofBaseName baseName hslash = .ok p) : p.baseName = baseName := by
  unfold StorePath.ofBaseName at h
  split at h
  · rw [← Except.ok.inj h]
  · cases h

/-- What is parsed is a canonical store path in another spelling. -/
theorem parseStorePath_eq_ok (h : cfg.parseStorePath path = .ok p) :
    (∃ rest, path = 47 :: rest) ∧ canonPath path = cfg.storeDir ++ [p.baseName] := by
  unfold parseStorePath at h
  split at h
  · cases h
  · split at h
    · cases h
    · rename_i hne habs
      dsimp only at h
      split at h
      · cases h
      · rename_i hdir
        have hparent := not_not.mp hdir
        constructor
        · cases path with
          | nil => exact absurd rfl hne
          | cons c rest =>
              have hc : c = 47 := by simpa [isAbsolute] using habs
              exact ⟨rest, by rw [hc]⟩
        · have hcanon : canonPath path ≠ [] := by
            intro hnil
            rw [hnil] at hparent
            exact cfg.nonempty hparent.symm
          rw [← List.dropLast_append_getLast hcanon, hparent, baseName_ofBaseName h, filename,
            List.getLast?_eq_some_getLast hcanon, Option.getD_some]

/-- A path whose canonical form has more text than there is before its last component. -/
theorem not_canonPath_of_length {before : Bytes} {names : List Name}
    (hlen : before.length ≤ (CanonPath.abs cfg.storeDir).length)
    (habs : before = [] ∨ ∃ rest, before = 47 :: rest) (name : Name) :
    canonPath before ≠ cfg.storeDir ++ name :: names := by
  intro hcanon
  rcases habs with rfl | ⟨rest, rfl⟩
  · have hnil : canonPath [] = [] := rfl
    rw [hnil] at hcanon
    exact absurd hcanon.symm (by simp)
  · have hsub := (canonPath_sublist rest).length_le
    rw [hcanon, List.flatMap_append, List.flatMap_cons, List.length_append, List.length_append,
      ← abs_storeDir, List.length_cons] at hsub
    omega

/-- What is cut off at the offset is the printed store path itself. -/
theorem eq_printStorePath_of_parse {before last : Bytes} (hlast : (47 : UInt8) ∉ last)
    (hlen : before.length ≤ (CanonPath.abs cfg.storeDir).length)
    (h : cfg.parseStorePath (before ++ 47 :: last) = .ok p) :
    before ++ 47 :: last = cfg.printStorePath p := by
  obtain ⟨⟨rest, hrest⟩, hcanon⟩ := parseStorePath_eq_ok h
  have habs : before = [] ∨ ∃ rest, before = 47 :: rest := by
    cases before with
    | nil => exact Or.inl rfl
    | cons c before => exact Or.inr ⟨before, by rw [(List.cons.inj hrest).1]⟩
  have hstep : canonPath (before ++ 47 :: last) = canonStep (canonPath before) last := by
    rw [canonPath_append_slash, splitSlash_name hlast]
    rfl
  have hlong : ∀ name names, canonPath before ≠ cfg.storeDir ++ name :: names := fun name _ =>
    not_canonPath_of_length hlen habs name
  rw [hstep, canonStep] at hcanon
  split at hcanon
  · exact absurd hcanon (hlong _ _)
  · split at hcanon
    · -- a `..` at the end would need a longer path before it
      rcases List.eq_nil_or_concat' (canonPath before) with hnil | ⟨init, name, hconcat⟩
      · rw [hnil] at hcanon
        exact absurd hcanon.symm (by simp)
      · rw [hconcat, List.dropLast_concat] at hcanon
        rw [hcanon, List.append_assoc] at hconcat
        exact absurd hconcat (hlong _ _)
    · obtain ⟨hdir, hname⟩ := List.append_inj' hcanon rfl
      have hbefore : before = CanonPath.abs cfg.storeDir := by
        rcases habs with rfl | ⟨rest', rfl⟩
        · exact absurd hdir.symm cfg.nonempty
        · have hsub := canonPath_sublist rest'
          rw [hdir, ← abs_storeDir] at hsub
          exact (hsub.eq_of_length_le hlen).symm
      rw [hbefore, List.singleton_inj.mp hname, printStorePath, List.append_assoc]
      rfl

/-- Where `toStorePath` returns, the path begins with the printed store path. -/
theorem toStorePath_eq_ok {r : CanonPath} (h : cfg.toStorePath path = .ok (p, r)) :
    ∃ rest, path = cfg.printStorePath p ++ rest ∧ (rest = [] ∨ rest.head? = some 47) ∧
      r = canonPath rest := by
  unfold toStorePath at h
  split at h
  · cases h
  · dsimp only at h
    set start := (CanonPath.abs cfg.storeDir).length + 1 with hstart
    set last := (path.drop start).takeWhile (· ≠ 47) with hlast
    set rest := (path.drop start).dropWhile (· ≠ 47) with hrest
    cases hparse : cfg.parseStorePath (path.take start ++ last) with
    | error e =>
        rw [hparse] at h
        cases h
    | ok p' =>
        rw [hparse] at h
        obtain ⟨rfl, rfl⟩ := Prod.mk.inj (Except.ok.inj h)
        have hsolid : (47 : UInt8) ∉ last := fun hmem => by
          have hne := List.all_takeWhile (p := fun c : UInt8 => decide (c ≠ 47)) (l := path.drop start)
          simpa using List.all_eq_true.mp hne 47 hmem
        -- the last slash before the cut
        have hslash : (47 : UInt8) ∈ path.take start := by
          obtain ⟨⟨text, htext⟩, -⟩ := parseStorePath_eq_ok hparse
          have hmem : (47 : UInt8) ∈ path.take start ++ last := by simp [htext]
          exact (List.mem_append.mp hmem).resolve_right hsolid
        obtain ⟨before, after, hsplit, hafter⟩ := exists_last_slash hslash
        have hlen : before.length ≤ (CanonPath.abs cfg.storeDir).length := by
          have htake := List.length_take_le start path
          rw [hsplit, List.length_append, List.length_cons] at htake
          omega
        have hfront : path.take start ++ last = before ++ 47 :: (after ++ last) := by
          rw [hsplit, List.append_assoc, List.cons_append]
        have hprinted : path.take start ++ last = cfg.printStorePath p' := by
          rw [hfront] at hparse ⊢
          exact eq_printStorePath_of_parse (by simp [hafter, hsolid]) hlen hparse
        refine ⟨rest, ?_, ?_, rfl⟩
        · rw [← hprinted, List.append_assoc, List.takeWhile_append_dropWhile, List.take_append_drop]
        · rcases hcase : rest with - | ⟨c, cs⟩
          · exact Or.inl rfl
          · have hstop := List.head?_dropWhile_not (fun c => decide (c ≠ 47)) (path.drop start)
            rw [← hrest, hcase] at hstop
            exact Or.inr (by simpa using hstop)

end StoreDirConfig

/-! ## Climbing -/

/-- A rest of a path never climbs above where it begins, `depth` components down. -/
def staysBeneath : Nat → List Name → Bool
  | _, [] => true
  | depth, comp :: comps =>
      if comp = [] ∨ comp = str "." then staysBeneath depth comps
      else if comp = str ".." then depth ≠ 0 && staysBeneath (depth - 1) comps
      else staysBeneath (depth + 1) comps

section Climbing

variable {base res res' : CanonPath} {comps : List Name}

/-- What has climbed too far never gets back: its canonical form stays too short. -/
theorem length_foldl_canonStep_lt (hbase : base ≠ []) (h : res'.length < base.length + res.length) :
    (comps.foldl canonStep res').length < base.length + (comps.foldl canonStep res).length := by
  have hpos := List.length_pos_of_ne_nil hbase
  induction comps generalizing res res' with
  | nil => exact h
  | cons comp comps ih =>
      rw [List.foldl_cons, List.foldl_cons]
      apply ih
      unfold canonStep
      split
      · exact h
      · split
        · rw [List.length_dropLast, List.length_dropLast]
          omega
        · rw [List.length_append, List.length_append]
          omega

theorem canonStep_skip {comp : Name} (h : comp = [] ∨ comp = str ".") : canonStep res comp = res := if_pos h

theorem canonStep_up {comp : Name} (h : ¬ (comp = [] ∨ comp = str ".")) (hup : comp = str "..") :
    canonStep res comp = res.dropLast := by
  rw [canonStep, if_neg h, if_pos hup]

theorem canonStep_name {comp : Name} (h : ¬ (comp = [] ∨ comp = str ".")) (hup : comp ≠ str "..") :
    canonStep res comp = res ++ [comp] := by
  rw [canonStep, if_neg h, if_neg hup]

/-- The canonical form of a rest may be taken apart from what is before it, if and only if
the rest stays beneath that. -/
theorem foldl_canonStep_append_iff (hbase : base ≠ []) :
    comps.foldl canonStep (base ++ res) = base ++ comps.foldl canonStep res ↔
      staysBeneath res.length comps = true := by
  induction comps generalizing res with
  | nil => exact iff_of_true rfl rfl
  | cons comp comps ih =>
      rw [List.foldl_cons, List.foldl_cons, staysBeneath]
      by_cases hskip : comp = [] ∨ comp = str "."
      · rw [if_pos hskip, canonStep_skip hskip, canonStep_skip hskip]
        exact ih
      · rw [if_neg hskip]
        by_cases hup : comp = str ".."
        · rw [if_pos hup, canonStep_up hskip hup, canonStep_up hskip hup]
          rcases List.eq_nil_or_concat' res with rfl | ⟨init, name, rfl⟩
          · -- the step takes a component of the base, and of nothing in the rest
            refine iff_of_false (fun h => ?_) (by simp)
            have hpos := List.length_pos_of_ne_nil hbase
            have hshort : base.dropLast.length < base.length + ([] : CanonPath).length := by
              rw [List.length_dropLast, List.length_nil]
              omega
            have hlt : (comps.foldl canonStep base.dropLast).length <
                base.length + (comps.foldl canonStep []).length := length_foldl_canonStep_lt hbase hshort
            have hlen := congrArg List.length h
            rw [List.append_nil, List.length_append, List.dropLast_nil] at hlen
            omega
          · rw [← List.append_assoc, List.dropLast_concat, List.dropLast_concat, ih]
            simp
        · rw [if_neg hup, canonStep_name hskip hup, canonStep_name hskip hup, List.append_assoc, ih,
            List.length_append, List.length_singleton]

end Climbing

/-! ## The claim of a split -/

namespace StoreDirConfig

variable {cfg : StoreDirConfig} {path : Bytes}

/-- The canonical form of the path is a store path with something, or nothing, beneath it. -/
def LiesIn (cfg : StoreDirConfig) (path : Bytes) (p : StorePath) (r : CanonPath) : Prop :=
  canonPath path = cfg.storeDir ++ p.baseName :: r

/-- A path that lies in a store path is split as its canonical form is, and no path is
split otherwise. -/
structure RespectsCanonicalisation (cfg : StoreDirConfig) (path : Bytes) : Prop where
  complete : ∀ p r, cfg.LiesIn path p r →
    cfg.isInStore path = true ∧ cfg.toStorePath path = .ok (p, r)
  sound : ∀ p r, cfg.toStorePath path = .ok (p, r) → cfg.LiesIn path p r

/-- The path begins with a printed store path, as it stands. -/
def Begins (cfg : StoreDirConfig) (path : Bytes) (p : StorePath) (rest : Bytes) : Prop :=
  path = cfg.printStorePath p ++ rest ∧ (rest = [] ∨ rest.head? = some 47)

/-- The same, and the rest never climbs above it. -/
def Straight (cfg : StoreDirConfig) (path : Bytes) : Prop :=
  ∃ p rest, cfg.Begins path p rest ∧ staysBeneath 0 (splitSlash rest) = true

/-- A path that begins with a store path lies in it as its rest says, if the rest stays
beneath it. -/
theorem liesIn_iff_staysBeneath {p : StorePath} {rest : Bytes} (h : cfg.Begins path p rest) :
    cfg.LiesIn path p (canonPath rest) ↔ staysBeneath 0 (splitSlash rest) = true := by
  obtain ⟨rfl, hrest⟩ := h
  have hne : cfg.storeDir ++ [p.baseName] ≠ [] := by simp
  have hcanon : canonPath (cfg.printStorePath p ++ rest) =
      (splitSlash rest).foldl canonStep (cfg.storeDir ++ [p.baseName] ++ []) := by
    rw [List.append_nil, ← canonPath_printStorePath]
    cases rest with
    | nil => rw [List.append_nil]; rfl
    | cons c rest =>
        obtain rfl : c = 47 := by simpa using hrest
        rw [canonPath_append_slash, splitSlash, if_pos rfl, List.foldl_cons]
        rfl
  have hdir : cfg.storeDir ++ p.baseName :: canonPath rest =
      cfg.storeDir ++ [p.baseName] ++ canonPath rest := by simp
  rw [LiesIn, hcanon, hdir]
  exact foldl_canonStep_append_iff hne

/-- A store path with a hash of zeros. -/
def zeroPath (name : Name) (hvalid : checkBaseName (List.replicate 32 48 ++ str "-" ++ name) = .ok ())
    (hslash : (47 : UInt8) ∉ List.replicate 32 48 ++ str "-" ++ name) : StorePath :=
  ⟨List.replicate 32 48 ++ str "-" ++ name, hvalid, hslash⟩

end StoreDirConfig

end Store
end Archinix
