import Archinix.Nixgen.RestoreMeta
import Mathlib.Data.List.DropRight

/-!
# State manifests

`nixgen-statepaths`, the one parser of `/etc/nixgen/state`.  A row is a path and
perhaps a tag; the rows without a tag are printed in one mode, those tagged `volatile`
in the other, and any other tag is reported.

`Accounted` says this of every line of the manifest.  The loop is `while read`, which
leaves out what stands after the last newline: `statepaths_accounts_iff`.
-/

namespace Archinix
namespace Nixgen

open Foundation.TextTable Util

/-! ## `read -r p tag` -/

/-- The blanks among which fields are found: `$IFS` without the newline. -/
def blank (c : UInt8) : Bool := c = 32 || c = 9

/-- One line of the input and the rest of it.  A variable holds no zero bytes, and at the
end of the input `read` fails, whatever it has read. -/
def readLine : Bytes → Option (Bytes × Bytes)
  | [] => none
  | c :: input =>
      if c = newline then some ([], input)
      else (readLine input).map fun r => (if c = 0 then r.1 else c :: r.1, r.2)

/-- The first field of a line, and what follows it. -/
def readFields (line : Bytes) : Bytes × Bytes :=
  let line := line.dropWhile blank
  (line.takeWhile (!blank ·), ((line.dropWhile (!blank ·)).dropWhile blank).rdropWhile blank)

theorem length_readLine {input line rest : Bytes} (h : readLine input = some (line, rest)) :
    rest.length < input.length := by
  induction input generalizing line with
  | nil => cases h
  | cons c input ih =>
      rw [readLine] at h
      split at h
      · cases h
        simp
      · obtain ⟨r, hr, hrest⟩ := Option.map_eq_some_iff.mp h
        have hlt := @ih r.1 (by rw [hr, ← (Prod.mk.inj hrest).2])
        rw [List.length_cons]
        omega

/-- `while read -r p tag`; the body does not read. -/
def whileRead {α : Type} (body : Bytes → Bytes → List α) (input : Bytes) : List α :=
  match h : readLine input with
  | none => []
  | some (line, rest) =>
      have := length_readLine h
      body (readFields line).1 (readFields line).2 ++ whileRead body rest
termination_by input.length

/-! ## The script -/

/-- An `echo`, and where it goes. -/
inductive Echo where
  | stdout (text : Bytes)
  | stderr (text : Bytes)
  deriving DecidableEq

def volSize : Bytes := str "25%"

/-- The body of the loop: `name` is `${0##*/}`. -/
def statepathsRow (name mode manifest : Bytes) (p tag : Bytes) : List Echo :=
  if (str "/").isPrefixOf p then
    if tag = [] then
      if mode = str "persistent" then [.stdout p] else []
    else if tag = str "volatile" then
      if mode = str "volatile" then [.stdout (p ++ str " " ++ volSize)] else []
    else if (str "volatile=").isPrefixOf tag then
      if mode = str "volatile" then
        [.stdout (p ++ str " " ++ tag.drop (str "volatile=").length)]
      else []
    else
      [.stderr (name ++ str ": " ++ manifest ++ str ": unknown tag '" ++ tag ++ str "' on " ++ p ++
        str ", row ignored")]
  else []

/-- `nixgen-statepaths mode manifest`: the exit status, and what is printed. -/
def statepaths (name mode manifest : Bytes) (content : Option Bytes) : Nat × List Echo :=
  if mode = str "persistent" ∨ mode = str "volatile" then
    match content with
    | none => (0, [])
    | some text =>
        -- `[ -s "$M" ]`
        if text = [] then (0, [])
        else (0, whileRead (statepathsRow name mode manifest) text)
  else (1, [.stderr (str "usage: " ++ name ++ str " <persistent|volatile> [manifest]")])

/-- What comes out of standard output, and of standard error. -/
def stdout (echoes : List Echo) : Bytes :=
  unlines newline (echoes.filterMap fun
    | .stdout text => some text
    | .stderr _ => none)

def stderr (echoes : List Echo) : Bytes :=
  unlines newline (echoes.filterMap fun
    | .stdout _ => none
    | .stderr text => some text)

/-! ## Fields -/

section Fields

variable {c : UInt8} {line rest field gap tag trail : Bytes}

/-- A field: no blank in it, and not nothing. -/
structure IsField (field : Bytes) : Prop where
  nonempty : field ≠ []
  solid : ∀ c ∈ field, blank c = false

/-- Text that neither begins nor ends with a blank. -/
structure IsTrimmed (tag : Bytes) : Prop where
  first : ∀ c, tag.head? = some c → blank c = false
  last : ∀ c, tag.getLast? = some c → blank c = false

/-- A line with a first field and what follows it. -/
def FieldsOf (line field tag : Bytes) : Prop :=
  IsField field ∧ IsTrimmed tag ∧ ∃ lead gap trail,
    line = lead ++ field ++ gap ++ tag ++ trail ∧
    (∀ c ∈ lead, blank c = true) ∧ (∀ c ∈ gap, blank c = true) ∧ (∀ c ∈ trail, blank c = true) ∧
    (tag = [] ∨ gap ≠ [])

theorem dropWhile_blanks (hgap : ∀ c ∈ gap, blank c = true) (h : ∀ c, rest.head? = some c → blank c = false) :
    (gap ++ rest).dropWhile blank = rest := by
  rw [List.dropWhile_append_of_pos hgap]
  cases rest with
  | nil => rfl
  | cons c rest => exact List.dropWhile_cons_of_neg (by simp [h c rfl])

theorem readFields_of_fieldsOf (h : FieldsOf line field tag) : readFields line = (field, tag) := by
  obtain ⟨hfield, htag, lead, gap, trail, rfl, hlead, hgap, htrail, hsep⟩ := h
  obtain ⟨c, cs, rfl⟩ := List.exists_cons_of_ne_nil hfield.nonempty
  have hskip : (lead ++ (c :: cs) ++ gap ++ tag ++ trail).dropWhile blank =
      (c :: cs) ++ (gap ++ (tag ++ trail)) := by
    simp only [List.append_assoc]
    exact dropWhile_blanks hlead fun c' hc' => by
      obtain rfl : c = c' := by simpa using hc'
      exact hfield.solid c (by simp)
  have hsolid : ∀ c' ∈ c :: cs, (!blank c') = true := fun c' hc' => by simp [hfield.solid c' hc']
  -- the field ends where a blank follows, or the line does
  have hend : ∀ c', (gap ++ (tag ++ trail)).head? = some c' → blank c' = true := by
    intro c' hc'
    cases gap with
    | cons g gap =>
        obtain rfl : g = c' := by simpa using hc'
        exact hgap g (by simp)
    | nil =>
        obtain rfl := hsep.resolve_right (by simp)
        cases trail with
        | nil => cases hc'
        | cons t trail =>
            obtain rfl : t = c' := by simpa using hc'
            exact htrail t (by simp)
  have hstop : (gap ++ (tag ++ trail)).takeWhile (!blank ·) = [] ∧
      (gap ++ (tag ++ trail)).dropWhile (!blank ·) = gap ++ (tag ++ trail) := by
    rcases hrest : gap ++ (tag ++ trail) with - | ⟨c', rest⟩
    · exact ⟨rfl, rfl⟩
    · have hblank := hend c' (by rw [hrest]; rfl)
      exact ⟨List.takeWhile_cons_of_neg (by simp [hblank]),
        List.dropWhile_cons_of_neg (by simp [hblank])⟩
  have hremainder : ((gap ++ (tag ++ trail)).dropWhile blank).rdropWhile blank = tag := by
    rcases htag' : tag with - | ⟨t, ts⟩
    · have hall : ∀ c ∈ gap ++ ([] ++ trail), blank c = true := by
        intro c hc
        simp only [List.nil_append, List.mem_append] at hc
        exact hc.elim (hgap c) (htrail c)
      rw [List.dropWhile_eq_nil_iff.mpr hall]
      rfl
    · rw [← htag', dropWhile_blanks hgap fun c' hc' => htag.first c' (by simpa [htag'] using hc')]
      rw [List.rdropWhile, List.reverse_append, List.dropWhile_append_of_pos
        (fun c hc => htrail c (List.mem_reverse.mp hc))]
      have hlast : ∀ c', tag.reverse.head? = some c' → blank c' = false := fun c' hc' =>
        htag.last c' (by rwa [List.head?_reverse] at hc')
      have hkeep : tag.reverse.dropWhile blank = tag.reverse :=
        dropWhile_blanks (List.forall_mem_nil _) hlast
      rw [hkeep, List.reverse_reverse]
  rw [readFields, hskip, List.takeWhile_append_of_pos hsolid, List.dropWhile_append_of_pos hsolid, hstop.1,
    hstop.2, hremainder, List.append_nil]

/-- A line that is not blank has fields, and they are what `read` assigns. -/
theorem fieldsOf_readFields (h : (readFields line).1 ≠ []) :
    FieldsOf line (readFields line).1 (readFields line).2 := by
  set body := line.dropWhile blank with hbody
  set after := (body.dropWhile (!blank ·)).dropWhile blank with hafter
  have hfields : readFields line = (body.takeWhile (!blank ·), after.rdropWhile blank) := rfl
  rw [hfields] at h ⊢
  have hsplit : line = line.takeWhile blank ++ body.takeWhile (!blank ·) ++
      (body.dropWhile (!blank ·)).takeWhile blank ++ after.rdropWhile blank ++
      after.rtakeWhile blank := by
    rw [List.append_assoc, List.append_assoc, List.append_assoc, List.rdropWhile_append_rtakeWhile,
      hafter, List.takeWhile_append_dropWhile, List.takeWhile_append_dropWhile, hbody,
      List.takeWhile_append_dropWhile]
  refine ⟨⟨h, fun c hc => by simpa using List.mem_takeWhile_imp hc⟩, ⟨fun c hc => ?_, fun c hc => ?_⟩,
    _, _, _, hsplit, fun c hc => List.mem_takeWhile_imp hc, fun c hc => List.mem_takeWhile_imp hc,
    fun c hc => ?_, ?_⟩
  · obtain ⟨rest, hrest⟩ := List.rdropWhile_prefix blank after
    have hhead : after.head? = some c := by
      rw [← hrest]
      exact List.mem_head?_append_of_mem_head? hc
    have hstop := List.head?_dropWhile_not blank (body.dropWhile (!blank ·))
    rw [← hafter, hhead] at hstop
    simpa using hstop
  · have hne : after.rdropWhile blank ≠ [] := by
      intro hnil
      rw [hnil] at hc
      cases hc
    have hlast := List.rdropWhile_last_not blank after hne
    rw [List.getLast?_eq_some_getLast hne] at hc
    rw [Option.some.inj hc] at hlast
    simpa using hlast
  · exact List.mem_rtakeWhile_imp hc
  · rcases hrest : body.dropWhile (!blank ·) with - | ⟨g, rest⟩
    · left
      rw [hafter, hrest]
      rfl
    · right
      have hstop := List.head?_dropWhile_not (!blank ·) body
      rw [hrest] at hstop
      have hg : blank g = true := by simpa using hstop
      rw [List.takeWhile_cons_of_pos hg]
      exact List.cons_ne_nil _ _

end Fields

/-! ## What a manifest says -/

/-- A line whose first field is an absolute path. -/
def IsRow (line path tag : Bytes) : Prop := FieldsOf line path tag ∧ str "/" <+: path

/-- The row that a line is, if it is one. -/
def rowOf (line : Bytes) : Option (Bytes × Bytes) :=
  if (str "/").isPrefixOf (readFields line).1 then some (readFields line) else none

theorem rowOf_eq_some_iff {line path tag : Bytes} :
    rowOf line = some (path, tag) ↔ IsRow line path tag := by
  unfold rowOf
  constructor
  · intro h
    split at h
    · rename_i hslash
      obtain ⟨hpath, htag⟩ := Prod.mk.inj (Option.some.inj h)
      have hprefix := List.isPrefixOf_iff_prefix.mp hslash
      have hne : (readFields line).1 ≠ [] := by
        intro hnil
        rw [hnil, List.prefix_nil] at hprefix
        cases hprefix
      rw [← hpath, ← htag]
      exact ⟨fieldsOf_readFields hne, hprefix⟩
    · cases h
  · rintro ⟨hfields, hslash⟩
    rw [readFields_of_fieldsOf hfields, if_pos (List.isPrefixOf_iff_prefix.mpr hslash)]

/-- The text of a manifest: the bytes that a variable can hold. -/
def manifestText (content : Bytes) : Bytes := content.filter (· ≠ 0)

/-- The rows of a manifest, in the order of its lines. -/
def manifestRows (content : Bytes) : List (Bytes × Bytes) :=
  (lines newline (manifestText content)).filterMap rowOf

/-- A row without a tag is persistent. -/
def persistentText (row : Bytes × Bytes) : Option Bytes :=
  if row.2 = [] then some row.1 else none

/-- The size of a volatile row: that of the tag, or the default. -/
def volatileSize (tag : Bytes) : Option Bytes :=
  if tag = str "volatile" then some volSize
  else if (str "volatile=").isPrefixOf tag then some (tag.drop (str "volatile=").length)
  else none

def volatileText (row : Bytes × Bytes) : Option Bytes :=
  (volatileSize row.2).map fun size => row.1 ++ str " " ++ size

/-- What is said of any other row. -/
def complaint (name manifest : Bytes) (row : Bytes × Bytes) : Option Bytes :=
  if row.2 = [] ∨ volatileSize row.2 ≠ none then none
  else some (name ++ str ": " ++ manifest ++ str ": unknown tag '" ++ row.2 ++ str "' on " ++
    row.1 ++ str ", row ignored")

/-- Every row of the manifest is accounted for: the persistent ones by the one mode, the
volatile ones by the other, and all others are reported; nothing else is printed. -/
structure Accounted (name manifest content : Bytes) : Prop where
  persistent : stdout (statepaths name (str "persistent") manifest (some content)).2 =
    unlines newline ((manifestRows content).filterMap persistentText)
  volatile : stdout (statepaths name (str "volatile") manifest (some content)).2 =
    unlines newline ((manifestRows content).filterMap volatileText)
  reported : ∀ mode, mode = str "persistent" ∨ mode = str "volatile" →
    stderr (statepaths name mode manifest (some content)).2 =
      unlines newline ((manifestRows content).filterMap (complaint name manifest))

/-- Every row is in exactly one of the three classes. -/
theorem row_classes (name manifest : Bytes) (row : Bytes × Bytes) :
    ((persistentText row).isSome ∧ volatileText row = none ∧ complaint name manifest row = none) ∨
    (persistentText row = none ∧ (volatileText row).isSome ∧ complaint name manifest row = none) ∨
    (persistentText row = none ∧ volatileText row = none ∧
      (complaint name manifest row).isSome) := by
  unfold persistentText volatileText complaint
  by_cases htag : row.2 = []
  · have hsize : volatileSize row.2 = none := by
      rw [htag]
      decide
    simp [htag, htag ▸ hsize]
  · rcases hsize : volatileSize row.2 with - | size
    · simp [htag]
    · simp [htag]

/-- What stands after the last newline. -/
def unterminated (content : Bytes) : Bytes := (manifestText content).rtakeWhile (· ≠ newline)

/-! ## The lines the loop reads -/

/-- The lines that end with a newline. -/
def terminated (content : Bytes) : List Bytes := ((manifestText content).splitOn newline).dropLast

theorem readLine_cases (input : Bytes) :
    (readLine input = none ∧ newline ∉ input) ∨
    ∃ raw rest, newline ∉ raw ∧ input = raw ++ newline :: rest ∧
      readLine input = some (manifestText raw, rest) := by
  induction input with
  | nil => exact Or.inl ⟨rfl, by simp⟩
  | cons c input ih =>
      rw [readLine]
      by_cases hc : c = newline
      · rw [if_pos hc]
        exact Or.inr ⟨[], input, by simp, by simp [hc], rfl⟩
      · rw [if_neg hc]
        rcases ih with ⟨hnone, hnl⟩ | ⟨raw, rest, hraw, rfl, hread⟩
        · rw [hnone]
          exact Or.inl ⟨rfl, by simp [hnl, Ne.symm hc]⟩
        · rw [hread]
          refine Or.inr ⟨c :: raw, rest, by simp [hraw, Ne.symm hc], rfl, ?_⟩
          by_cases hzero : c = 0 <;> simp [manifestText, hzero]

theorem manifestText_append_newline (raw rest : Bytes) :
    manifestText (raw ++ newline :: rest) = manifestText raw ++ newline :: manifestText rest := by
  simp [manifestText, newline]

theorem not_mem_manifestText {raw : Bytes} (h : newline ∉ raw) : newline ∉ manifestText raw :=
  fun hmem => h (List.mem_of_mem_filter hmem)

/-- The loop runs for the lines that end with a newline, in their order. -/
theorem whileRead_eq {α : Type} (body : Bytes → Bytes → List α) (input : Bytes) :
    whileRead body input =
      (terminated input).flatMap fun line => body (readFields line).1 (readFields line).2 := by
  induction input using whileRead.induct with
  | case1 input hnone =>
      have hnl : newline ∉ input := by
        rcases readLine_cases input with ⟨-, hnl⟩ | ⟨raw, rest, -, -, hread⟩
        · exact hnl
        · rw [hread] at hnone
          cases hnone
      rw [whileRead, terminated, List.splitOn_eq_singleton (not_mem_manifestText hnl)]
      split
      · rfl
      · rename_i hsome
        rw [hnone] at hsome
        cases hsome
  | case2 input line rest hsome hlt ih =>
      rcases readLine_cases input with ⟨hnone, -⟩ | ⟨raw, rest', hraw, rfl, hread⟩
      · rw [hnone] at hsome
        cases hsome
      · rw [hsome] at hread
        obtain ⟨rfl, rfl⟩ := Prod.mk.inj (Option.some.inj hread)
        have hterminated : terminated (raw ++ newline :: rest) =
            manifestText raw :: terminated rest := by
          rw [terminated, manifestText_append_newline, List.splitOn_append_cons_self,
            List.splitOn_eq_singleton (not_mem_manifestText hraw), List.singleton_append,
            List.dropLast_cons_of_ne_nil (List.splitOn_ne_nil _ _)]
          rfl
        rw [whileRead, hterminated, List.flatMap_cons, ← ih]
        split
        · rename_i hnone
          rw [hnone] at hsome
          cases hsome
        · rename_i line' rest'' hsome'
          rw [hsome] at hsome'
          obtain ⟨rfl, rfl⟩ := Prod.mk.inj (Option.some.inj hsome')
          rfl

/-- The last piece of a text is what stands after the last newline. -/
theorem splitOn_eq_concat (text : Bytes) : text.splitOn newline =
    (text.splitOn newline).dropLast ++ [text.rtakeWhile (· ≠ newline)] := by
  have hlast : newline ∉ text.rtakeWhile (· ≠ newline) := fun hmem => by
    simpa using List.mem_rtakeWhile_imp hmem
  have hsplit := List.rdropWhile_append_rtakeWhile (p := fun c => decide (c ≠ newline)) (l := text)
  rcases List.eq_nil_or_concat' (text.rdropWhile (· ≠ newline)) with hnil | ⟨init, c, hinit⟩
  · rw [hnil, List.nil_append] at hsplit
    rw [hsplit] at hlast ⊢
    rw [List.splitOn_eq_singleton hlast]
    rfl
  · have hc : c = newline := by
      have hne : text.rdropWhile (· ≠ newline) ≠ [] := by
        rw [hinit]
        simp
      have hstop := List.rdropWhile_last_not _ text hne
      simp only [hinit, List.getLast_concat] at hstop
      simpa using hstop
    rw [hinit, hc, List.append_assoc, List.singleton_append] at hsplit
    have hpieces : text.splitOn newline =
        init.splitOn newline ++ [text.rtakeWhile (· ≠ newline)] := by
      conv_lhs => rw [← hsplit]
      rw [List.splitOn_append_cons_self, List.splitOn_eq_singleton hlast]
    rw [hpieces, List.dropLast_concat]

/-- The last line of a text need not end with a newline. -/
theorem lines_manifestText (content : Bytes) : lines newline (manifestText content) =
    terminated content ++ if unterminated content = [] then [] else [unterminated content] := by
  have hpieces : (manifestText content).splitOn newline =
      terminated content ++ [unterminated content] := splitOn_eq_concat _
  rw [lines, hpieces, List.getLast?_concat, List.dropLast_concat]
  by_cases hnil : unterminated content = []
  · simp [hnil]
  · simp [hnil]

/-- The rows of the lines that end with a newline, and that of the last line. -/
theorem manifestRows_eq (content : Bytes) : manifestRows content =
    (terminated content).filterMap rowOf ++ (rowOf (unterminated content)).toList := by
  rw [manifestRows, lines_manifestText, List.filterMap_append]
  congr 1
  split
  · rename_i hnil
    rw [hnil]
    rfl
  · cases hrow : rowOf (unterminated content) <;> simp [hrow]

/-! ## What is printed -/

/-- The branches of a tag, by the size that it gives. -/
theorem statepathsRow_tagged (name mode manifest : Bytes) {p tag : Bytes}
    (hslash : (str "/").isPrefixOf p) (htag : tag ≠ []) :
    statepathsRow name mode manifest p tag =
      match volatileSize tag with
      | some size => if mode = str "volatile" then [.stdout (p ++ str " " ++ size)] else []
      | none => [.stderr (name ++ str ": " ++ manifest ++ str ": unknown tag '" ++ tag ++
          str "' on " ++ p ++ str ", row ignored")] := by
  rw [statepathsRow, if_pos hslash, if_neg htag, volatileSize]
  split
  · rfl
  · split <;> rfl

/-- One round of the loop prints what its row asks for. -/
theorem statepathsRow_eq (name mode manifest line : Bytes) :
    statepathsRow name mode manifest (readFields line).1 (readFields line).2 =
      ((rowOf line).bind fun row =>
        if mode = str "persistent" then persistentText row
        else if mode = str "volatile" then volatileText row
        else none).toList.map Echo.stdout ++
      ((rowOf line).bind (complaint name manifest)).toList.map Echo.stderr := by
  have hmodes : str "volatile" ≠ str "persistent" := by decide
  rw [rowOf]
  by_cases hslash : (str "/").isPrefixOf (readFields line).1
  · rw [if_pos hslash, Option.bind_some, Option.bind_some]
    generalize readFields line = row at hslash
    by_cases htag : row.2 = []
    · have hsize : volatileSize [] = none := by decide
      rw [statepathsRow, if_pos hslash, if_pos htag]
      by_cases hmode : mode = str "persistent" <;>
        simp [persistentText, volatileText, complaint, htag, hmode, hsize]
    · rw [statepathsRow_tagged name mode manifest hslash htag]
      cases hsize : volatileSize row.2 with
      | none => simp [persistentText, volatileText, complaint, htag, hsize]
      | some size =>
          by_cases hmode : mode = str "volatile" <;>
            simp [persistentText, volatileText, complaint, htag, hsize, hmode, hmodes]
  · rw [statepathsRow, if_neg hslash, if_neg hslash]
    rfl

section Printed

variable {name mode manifest content : Bytes}

/-- The script prints what the rows before the last newline ask for. -/
theorem statepaths_eq (hmode : mode = str "persistent" ∨ mode = str "volatile") :
    (statepaths name mode manifest (some content)).2 =
      (terminated content).flatMap fun line =>
        statepathsRow name mode manifest (readFields line).1 (readFields line).2 := by
  rw [statepaths, if_pos hmode]
  split
  · rename_i hempty
    rw [hempty]
    rfl
  · exact whileRead_eq _ _

/-- An output has the texts of the rows, when every line prints that of its row. -/
theorem filterMap_flatMap_rows {pick : Echo → Option Bytes}
    {print : Bytes → List Echo} {text : Bytes × Bytes → Option Bytes}
    (hline : ∀ line, (print line).filterMap pick = ((rowOf line).bind text).toList) (rows : List Bytes) :
    (rows.flatMap print).filterMap pick = (rows.filterMap rowOf).filterMap text := by
  induction rows with
  | nil => rfl
  | cons line rest ih =>
      rw [List.flatMap_cons, List.filterMap_append, ih, hline]
      cases hrow : rowOf line with
      | none => rw [List.filterMap_cons_none hrow, Option.bind_none, Option.toList_none, List.nil_append]
      | some row =>
          rw [List.filterMap_cons_some hrow, Option.bind_some]
          cases htext : text row with
          | none => rw [List.filterMap_cons_none htext, Option.toList_none, List.nil_append]
          | some t => rw [List.filterMap_cons_some htext, Option.toList_some, List.singleton_append]

theorem stdout_statepaths (hmode : mode = str "persistent" ∨ mode = str "volatile") :
    stdout (statepaths name mode manifest (some content)).2 =
      unlines newline (((terminated content).filterMap rowOf).filterMap fun row =>
        if mode = str "persistent" then persistentText row
        else if mode = str "volatile" then volatileText row
        else none) := by
  rw [statepaths_eq hmode, stdout]
  congr 1
  apply filterMap_flatMap_rows
  intro line
  rw [statepathsRow_eq, List.filterMap_append]
  simp

theorem stderr_statepaths (hmode : mode = str "persistent" ∨ mode = str "volatile") :
    stderr (statepaths name mode manifest (some content)).2 =
      unlines newline
        (((terminated content).filterMap rowOf).filterMap (complaint name manifest)) := by
  rw [statepaths_eq hmode, stderr]
  congr 1
  apply filterMap_flatMap_rows
  intro line
  rw [statepathsRow_eq, List.filterMap_append]
  simp

end Printed

/-- A further line shows in a text. -/
theorem unlines_append_toList_eq_iff (ls : List Bytes) (text : Option Bytes) :
    unlines newline ls = unlines newline (ls ++ text.toList) ↔ text = none := by
  cases text with
  | none => simp
  | some t => simp [unlines]

end Nixgen
end Archinix
