import Archinix.Nixgen.StatePaths

/-!
# Capabilities

`nixgen-savemeta` has `getcap` write a line for every file with capabilities, and
`nixgen-restmeta` reads the lines with `read -r p caps`.  The shell splits a line at
its first blank, and a path may have one: `restmeta_caps_iff`.
-/

namespace Archinix
namespace Nixgen

open Foundation.TextTable Util

/-- Capability sets and their texts: `cap_to_text` and `cap_from_text`. -/
structure CapabilityText (C : Type) where
  toText : C → Bytes
  fromText : Bytes → Option C
  fromText_toText : ∀ c, fromText (toText c) = some c
  toText_ne_nil : ∀ c, toText c ≠ []
  trimmed : ∀ c, IsTrimmed (toText c)
  plain : ∀ c, newline ∉ toText c ∧ 0 ∉ toText c

/-- A regular file as `find .` prints its path, and its capabilities. -/
structure RegularFile (C : Type) where
  path : Bytes
  caps : Option C
  deriving DecidableEq

/-- The regular files of a tree that savemeta's `find` lists. -/
structure RegularFiles (C : Type) where
  files : List (RegularFile C)
  path_unique : (files.map (·.path)).Nodup
  path_dot : ∀ f ∈ files, str "./" <+: f.path
  path_plain : ∀ f ∈ files, tab ∉ f.path ∧ newline ∉ f.path ∧ 0 ∉ f.path

section Caps

variable {C : Type} (text : CapabilityText C)

/-- The paths and texts that `getcap` is to record, in the order of `sort`. -/
def capsRows (files : List (RegularFile C)) : List (Bytes × Bytes) :=
  (files.mergeSort fun f f' => f.path ≤ f'.path).filterMap fun f =>
    f.caps.map fun c => (f.path, text.toText c)

/-- A line of `getcap`. -/
def capsLine (row : Bytes × Bytes) : Bytes := row.1 ++ str " " ++ row.2

/-- `etc/nixgen/caps`. -/
def caps (t : RegularFiles C) : Bytes := unlines newline ((capsRows text t.files).map capsLine)

/-- The loop of restmeta: what it runs `setcap` with. -/
def readCaps (content : Bytes) : List (Bytes × Bytes) :=
  -- `[ -s "$C" ]`
  if content = [] then [] else whileRead (fun p caps => [(p, caps)]) content

/-- `setcap "$caps" "$p"` fails softly.  What precedes a blank in a path has the
directories of that path, so it names a file only as one of the list. -/
def setcap (row : Bytes × Bytes) (f : RegularFile C) : RegularFile C :=
  match text.fromText row.2 with
  | some c => if f.path = row.1 then { f with caps := some c } else f
  | none => f

def replayCaps (content : Bytes) (files : List (RegularFile C)) : List (RegularFile C) :=
  (readCaps content).foldl (fun files row => files.map (setcap text row)) files

/-- What the store makes of a file. -/
def RegularFile.strip (f : RegularFile C) : RegularFile C := { f with caps := none }

/-- No file with capabilities has a space in its path. -/
def CapsPathsSolid (t : RegularFiles C) : Prop :=
  ∀ f ∈ t.files, f.caps ≠ none → (32 : UInt8) ∉ f.path

/-! ## Rows -/

variable {text}

theorem mem_capsRows {files : List (RegularFile C)} {row : Bytes × Bytes} :
    row ∈ capsRows text files ↔ ∃ f ∈ files, ∃ c, f.caps = some c ∧ (f.path, text.toText c) = row := by
  simp only [capsRows, List.mem_filterMap, List.mem_mergeSort, Option.map_eq_some_iff]

theorem manifestText_unlines {ls : List Bytes} (h : ∀ l ∈ ls, 0 ∉ l) :
    manifestText (unlines newline ls) = unlines newline ls := by
  refine List.filter_eq_self.mpr fun c hc => ?_
  obtain ⟨l, hl, hmem⟩ := List.mem_flatMap.mp hc
  have hne : c ≠ 0 := by
    rintro rfl
    rcases List.mem_append.mp hmem with hin | hnl
    · exact h l hl hin
    · exact absurd (List.mem_singleton.mp hnl) (by decide)
  simpa using hne

theorem terminated_unlines {ls : List Bytes} (h : ∀ l ∈ ls, newline ∉ l ∧ 0 ∉ l) :
    terminated (unlines newline ls) = ls := by
  have hlines : lines newline (unlines newline ls) = ls := lines_unlines fun l hl => (h l hl).1
  rw [terminated, manifestText_unlines fun l hl => (h l hl).2, splitOn_unlines, List.dropLast_concat,
    ← lines_unlines_flatMap, hlines]

theorem capsLine_plain {t : RegularFiles C} : ∀ l ∈ (capsRows text t.files).map capsLine,
    newline ∉ l ∧ 0 ∉ l := by
  intro l hl
  obtain ⟨row, hrow, rfl⟩ := List.mem_map.mp hl
  obtain ⟨f, hf, c, -, rfl⟩ := mem_capsRows.mp hrow
  obtain ⟨-, hnl, hzero⟩ := t.path_plain f hf
  obtain ⟨hnl', hzero'⟩ := text.plain c
  have hspace : newline ∉ str " " ∧ 0 ∉ str " " := by decide +kernel
  simp [capsLine, hnl, hzero, hnl', hzero', hspace.1, hspace.2]

/-- What the loop reads of what was written. -/
theorem readCaps_caps (t : RegularFiles C) :
    readCaps (caps text t) = (capsRows text t.files).map fun row => readFields (capsLine row) := by
  have hread : whileRead (fun p caps => [(p, caps)]) (caps text t) =
      (capsRows text t.files).map fun row => readFields (capsLine row) := by
    rw [whileRead_eq, caps, terminated_unlines capsLine_plain, List.flatMap_map]
    exact List.map_eq_flatMap.symm
  rw [readCaps]
  split
  · rename_i hempty
    rw [← hread, hempty, whileRead_eq]
    rfl
  · exact hread

/-- A line is read as it was written just if its path has no space. -/
theorem readFields_capsLine_iff {t : RegularFiles C} {f : RegularFile C} (hf : f ∈ t.files) (c : C) :
    readFields (capsLine (f.path, text.toText c)) = (f.path, text.toText c) ↔ (32 : UInt8) ∉ f.path := by
  have hne : f.path ≠ [] := by
    intro hnil
    have hdot := t.path_dot f hf
    rw [hnil, List.prefix_nil] at hdot
    exact absurd hdot (by decide +kernel)
  constructor
  · intro hread hspace
    have hsome : (readFields (capsLine (f.path, text.toText c))).1 ≠ [] := by
      rw [hread]
      exact hne
    have hfield := (fieldsOf_readFields hsome).1
    rw [hread] at hfield
    exact absurd (hfield.solid 32 hspace) (by decide)
  · intro hspace
    have hsolid : ∀ c ∈ f.path, blank c = false := by
      intro c' hc'
      have hne32 : c' ≠ 32 := fun h => hspace (h ▸ hc')
      have hne9 : c' ≠ tab := fun h => (t.path_plain f hf).1 (h ▸ hc')
      simp [blank, hne32, show c' ≠ 9 from hne9]
    refine readFields_of_fieldsOf ⟨⟨hne, hsolid⟩, text.trimmed c, [], str " ", [], ?_, ?_, ?_, ?_, ?_⟩
    · rw [capsLine, List.append_nil, List.nil_append]
    · exact List.forall_mem_nil _
    · decide +kernel
    · exact List.forall_mem_nil _
    · exact Or.inr (List.cons_ne_nil _ _)

/-- The rows read back just if no file with capabilities has a space in its path. -/
theorem readCaps_iff (t : RegularFiles C) :
    readCaps (caps text t) = capsRows text t.files ↔ CapsPathsSolid t := by
  have hpointwise : readCaps (caps text t) = capsRows text t.files ↔
      ∀ row ∈ capsRows text t.files, readFields (capsLine row) = row := by
    rw [readCaps_caps]
    conv_lhs => rhs; rw [← List.map_id (capsRows text t.files)]
    exact List.map_inj_left
  rw [hpointwise]
  constructor
  · intro hrows f hf hcaps
    obtain ⟨c, hc⟩ := Option.ne_none_iff_exists'.mp hcaps
    exact (readFields_capsLine_iff hf c).mp (hrows _ (mem_capsRows.mpr ⟨f, hf, c, hc, rfl⟩))
  · intro hsolid row hrow
    obtain ⟨f, hf, c, hc, rfl⟩ := mem_capsRows.mp hrow
    exact (readFields_capsLine_iff hf c).mpr (hsolid f hf (by rw [hc]; exact Option.some_ne_none c))

/-! ## Replay -/

theorem foldl_setcap (rows : List (Bytes × Bytes)) (files : List (RegularFile C)) :
    rows.foldl (fun files row => files.map (setcap text row)) files =
      files.map fun f => rows.foldl (fun f row => setcap text row f) f := by
  induction rows generalizing files with
  | nil => exact (List.map_id' files).symm
  | cons row rows ih =>
      rw [List.foldl_cons, ih, List.map_map]
      rfl

/-- A file that no row names stays as it is. -/
theorem foldl_setcap_other {rows : List (Bytes × Bytes)} {f : RegularFile C}
    (h : ∀ row ∈ rows, row.1 ≠ f.path) : rows.foldl (fun f row => setcap text row f) f = f := by
  induction rows with
  | nil => rfl
  | cons row rows ih =>
      have hrow : setcap text row f = f := by
        rw [setcap]
        split
        · exact if_neg fun heq => h row List.mem_cons_self heq.symm
        · rfl
      rw [List.foldl_cons, hrow, ih fun row' hrow' => h row' (List.mem_cons_of_mem _ hrow')]

/-- A file all of whose rows have one text has its capabilities. -/
theorem foldl_setcap_same {rows : List (Bytes × Bytes)} {f : RegularFile C} {c : C}
    (hall : ∀ row ∈ rows, row.1 = f.path → row.2 = text.toText c)
    (hsome : f.caps = some c ∨ ∃ row ∈ rows, row.1 = f.path) :
    rows.foldl (fun f row => setcap text row f) f = { f with caps := some c } := by
  induction rows generalizing f with
  | nil =>
      rcases hsome with hcaps | ⟨row, hrow, -⟩
      · rw [← hcaps]
        rfl
      · exact absurd hrow List.not_mem_nil
  | cons row rows ih =>
      have hrest := fun row' hrow' => hall row' (List.mem_cons_of_mem row hrow')
      rw [List.foldl_cons]
      by_cases hpath : row.1 = f.path
      · have hset : setcap text row f = { f with caps := some c } := by
          rw [setcap, hall row List.mem_cons_self hpath, text.fromText_toText]
          exact if_pos hpath.symm
        rw [hset]
        exact ih (f := { f with caps := some c }) hrest (Or.inl rfl)
      · have hset : setcap text row f = f := by
          rw [setcap]
          split
          · exact if_neg (Ne.symm hpath)
          · rfl
        rw [hset]
        refine ih hrest (hsome.imp_right ?_)
        rintro ⟨row', hrow', hpath'⟩
        rcases List.mem_cons.mp hrow' with rfl | hmem
        · exact absurd hpath' hpath
        · exact ⟨row', hmem, hpath'⟩

theorem RegularFiles.eq_of_path {t : RegularFiles C} {f f' : RegularFile C} (hf : f ∈ t.files)
    (hf' : f' ∈ t.files) (h : f.path = f'.path) : f = f' :=
  List.inj_on_of_nodup_map t.path_unique hf hf' h

/-- The recorded rows give each file its capabilities back. -/
theorem foldl_setcap_capsRows {t : RegularFiles C} {f : RegularFile C} (hf : f ∈ t.files) :
    (capsRows text t.files).foldl (fun f row => setcap text row f) f.strip = f := by
  cases hcaps : f.caps with
  | none =>
      have hstrip : f.strip = f := by
        rcases f with ⟨path, caps⟩
        cases hcaps
        rfl
      rw [hstrip]
      apply foldl_setcap_other
      intro row hrow hpath
      obtain ⟨f', hf', c, hc, rfl⟩ := mem_capsRows.mp hrow
      rw [RegularFiles.eq_of_path hf' hf hpath, hcaps] at hc
      cases hc
  | some c =>
      have hall : ∀ row ∈ capsRows text t.files, row.1 = f.strip.path → row.2 = text.toText c := by
        intro row hrow hpath
        obtain ⟨f', hf', c', hc', rfl⟩ := mem_capsRows.mp hrow
        rw [RegularFiles.eq_of_path hf' hf hpath, hcaps] at hc'
        cases hc'
        rfl
      rw [foldl_setcap_same hall (Or.inr ⟨_, mem_capsRows.mpr ⟨f, hf, c, hcaps, rfl⟩, rfl⟩)]
      rcases f with ⟨path, caps⟩
      cases hcaps
      rfl

/-- The replay restores the capabilities just if no file with some has a space in its
path: such a path is never read. -/
theorem replayCaps_iff (t : RegularFiles C) :
    replayCaps text (caps text t) (t.files.map RegularFile.strip) = t.files ↔ CapsPathsSolid t := by
  constructor
  · intro hreplay f hf hcaps hspace
    rw [replayCaps, foldl_setcap, List.map_map] at hreplay
    conv at hreplay => rhs; rw [← List.map_id t.files]
    have hkept := List.map_inj_left.mp hreplay f hf
    have hother : ∀ row ∈ readCaps (caps text t), row.1 ≠ f.strip.path := by
      rw [readCaps_caps]
      intro row hrow hpath
      obtain ⟨row', -, rfl⟩ := List.mem_map.mp hrow
      have hne : (readFields (capsLine row')).1 ≠ [] := by
        rw [hpath]
        exact List.ne_nil_of_mem hspace
      have hsolid := (fieldsOf_readFields hne).1.solid 32 (by rw [hpath]; exact hspace)
      exact absurd hsolid (by decide)
    rw [Function.comp_apply, foldl_setcap_other hother, id] at hkept
    exact hcaps (by rw [← hkept]; rfl)
  · intro hsolid
    rw [replayCaps, (readCaps_iff t).mpr hsolid, foldl_setcap, List.map_map]
    conv_rhs => rw [← List.map_id t.files]
    exact List.map_congr_left fun f hf => foldl_setcap_capsRows hf

/-- When the capability rows read back as they were written, and every captured
capability is applied to its file again. -/
theorem restmeta_caps_iff (text : CapabilityText C) (t : RegularFiles C) :
    (readCaps (caps text t) = capsRows text t.files ↔ CapsPathsSolid t) ∧
    (replayCaps text (caps text t) (t.files.map RegularFile.strip) = t.files ↔ CapsPathsSolid t) :=
  ⟨readCaps_iff t, replayCaps_iff t⟩

end Caps

/-- One capability set. -/
def netRaw : CapabilityText Unit where
  toText _ := str "cap_net_raw=ep"
  fromText s := if s = str "cap_net_raw=ep" then some () else none
  fromText_toText _ := rfl
  toText_ne_nil _ := List.cons_ne_nil _ _
  trimmed _ := ⟨by decide +kernel, by decide +kernel⟩
  plain _ := by decide +kernel

def oneFile (path : Bytes) (hdot : str "./" <+: path) (hplain : tab ∉ path ∧ newline ∉ path ∧ 0 ∉ path) :
    RegularFiles Unit where
  files := [⟨path, some ()⟩]
  path_unique := List.nodup_singleton _
  path_dot f hf := by rwa [List.mem_singleton.mp hf]
  path_plain f hf := by rwa [List.mem_singleton.mp hf]

def newuidmap : RegularFiles Unit :=
  oneFile (str "./usr/bin/newuidmap") (by decide +kernel) (by decide +kernel)

theorem newuidmap_restored :
    replayCaps netRaw (caps netRaw newuidmap) [⟨str "./usr/bin/newuidmap", none⟩] =
      [⟨str "./usr/bin/newuidmap", some ()⟩] := by
  refine (restmeta_caps_iff netRaw newuidmap).2.mpr fun f hf _ => ?_
  rw [List.mem_singleton.mp hf]
  decide +kernel

def spacedFile : RegularFiles Unit :=
  oneFile (str "./opt/a b") (by decide +kernel) (by decide +kernel)

/-- A path with a space is read up to it, and the file stays without. -/
theorem spacedFile_not_restored :
    readCaps (caps netRaw spacedFile) = [(str "./opt/a", str "b cap_net_raw=ep")] ∧
    readCaps (caps netRaw spacedFile) ≠ capsRows netRaw spacedFile.files ∧
    replayCaps netRaw (caps netRaw spacedFile) (spacedFile.files.map RegularFile.strip) =
      [⟨str "./opt/a b", none⟩] := by
  have hread : readCaps (caps netRaw spacedFile) = [(str "./opt/a", str "b cap_net_raw=ep")] := by
    rw [readCaps_caps]
    decide +kernel
  refine ⟨hread, ?_, ?_⟩
  · rw [hread]
    decide +kernel
  · rw [replayCaps, hread]
    decide +kernel

end Nixgen
end Archinix
