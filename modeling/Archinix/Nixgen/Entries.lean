import Archinix.Foundation.Pattern
import Archinix.Nixgen.RestoreMeta
import Archinix.Store.MakeStorePath

/-!
# Menu entries

`entries.cfg`: `nixgen-entry` appends a generation's stanza, and `nixgen-remove` takes it
out with an `awk` filter.  The filter reads the generation's name as a regular
expression, so it finds the lines that contain one of its words.
-/

namespace Archinix
namespace Nixgen

open Foundation Foundation.TextTable Foundation.Pattern Util Store

/-- A generation: `<hash>-<name>`. -/
structure GenName where
  hash : Bytes
  name : Bytes
  hash_length : hash.length = HashLen
  hash_chars : ∀ c ∈ hash, isHashChar c = true
  name_valid : checkName name = .ok ()

def GenName.baseName (gen : GenName) : Bytes := gen.hash ++ str "-" ++ gen.name

/-- The arguments of `nixgen-entry`, and what it finds in `/proc/cmdline`. -/
structure MenuEntry where
  gen : GenName
  tag : Bytes
  procCmdline : Bytes
  tag_line : newline ∉ tag

/-- `tr`. -/
def tr (a b : UInt8) (text : Bytes) : Bytes := text.map fun c => if c = a then b else c

/-- What `grep -v` leaves of the words of the command line. -/
def inherited (word : Bytes) : Bool :=
  word ≠ [] && [str "nixgen=", str "nixsource=", str "BOOT_IMAGE=", str "initrd="].all
    fun selector => !selector.isPrefixOf word

def MenuEntry.cmdline (e : MenuEntry) : Bytes :=
  tr newline 32 (unlines newline ((lines newline (tr 32 newline e.procCmdline)).filter inherited))

def MenuEntry.menuLine (e : MenuEntry) : Bytes :=
  str "menuentry \"nixarch: " ++ e.gen.baseName ++ str " (" ++ e.tag ++ str ")\" \x7b"

/-- The lines of the here-document. -/
def MenuEntry.stanzaLines (e : MenuEntry) : List Bytes :=
  [e.menuLine,
    str "\tsearch --no-floppy --set=nixdev --label NIXSTORE",
    str "\tlinux ($nixdev)/nix/store/" ++ e.gen.baseName ++ str "/boot/vmlinuz-linux nixgen=" ++
      e.gen.baseName ++ str " nixsource=disk " ++ e.cmdline,
    str "\tinitrd ($nixdev)/nix/store/" ++ e.gen.baseName ++ str "/boot/initramfs-linux.img",
    str "\x7d"]

def MenuEntry.stanza (e : MenuEntry) : Bytes := unlines newline e.stanzaLines

/-- `grep` for a name: a dot in it stands for any character, and nothing else in it is
special in a basic regular expression. -/
def grep (text line : Bytes) : Bool := line.tails.any (matchPrefix (text.map literal))

/-- `nixgen-entry`; a file that is not there reads as an empty one. -/
def nixgenEntry (cfg : Bytes) (e : MenuEntry) : Option Bytes :=
  if (lines newline cfg).any (grep (str "nixgen=" ++ e.gen.baseName ++ str " ")) then none
  else some (cfg ++ e.stanza)

/-- `entries.cfg` after these calls, none of which was refused. -/
def entriesCfg (entries : List MenuEntry) : Option Bytes := entries.foldlM nixgenEntry []

/-- The `awk` filter, line by line, with its variable `skip`. -/
def pruneLines (isEntry : Bytes → Bool) : Bool → List Bytes → List Bytes
  | _, [] => []
  | skip, line :: rest =>
      let skip := skip || isEntry line
      if skip then pruneLines isEntry (!(str "\x7d").isPrefixOf line) rest
      else line :: pruneLines isEntry false rest

/-- `$0 ~ "^menuentry .*" g`. -/
def isEntryOf (g line : Bytes) : Bool := matchPrefix (ereItems (str "menuentry .*" ++ g)) line

/-- What `nixgen-remove` makes of `entries.cfg`. -/
def prune (g cfg : Bytes) : Bytes :=
  unlines newline (pruneLines (isEntryOf g) false (lines newline cfg))

/-! ## Lines of a stanza -/

section Lines

variable {gen : GenName} {e : MenuEntry} {g line : Bytes}

theorem isNameChar_baseName {c : UInt8} (h : c ∈ gen.baseName) : isNameChar c = true := by
  have hhash : ∀ c ∈ BaseNix32.characters, isNameChar c = true := by decide +kernel
  rcases List.mem_append.mp h with h | h
  · rcases List.mem_append.mp h with h | h
    · exact hhash c (isHashChar_iff.mp (gen.hash_chars c h))
    · rw [List.mem_singleton.mp h]
      decide
  · exact isNameChar_of_checkName gen.name_valid h

theorem newline_not_mem_baseName : newline ∉ gen.baseName := fun h => by
  have hchar := isNameChar_baseName h
  revert hchar
  decide

theorem space_not_mem_baseName : (32 : UInt8) ∉ gen.baseName := fun h => by
  have hchar := isNameChar_baseName h
  revert hchar
  decide

theorem newline_not_mem_cmdline : newline ∉ e.cmdline := by
  intro h
  obtain ⟨c, -, hc⟩ := List.mem_map.mp h
  by_cases hnl : c = newline
  · rw [if_pos hnl] at hc
    revert hc
    decide
  · rw [if_neg hnl] at hc
    exact hnl hc

theorem newline_not_mem_stanzaLines (h : line ∈ e.stanzaLines) : newline ∉ line := by
  have hbase : newline ∉ e.gen.baseName := newline_not_mem_baseName
  have hcmdline := newline_not_mem_cmdline (e := e)
  have htag := e.tag_line
  simp only [MenuEntry.stanzaLines, List.mem_cons, List.not_mem_nil, or_false] at h
  rcases h with rfl | rfl | rfl | rfl | rfl
  · simp only [MenuEntry.menuLine, List.mem_append, hbase, htag, or_false]
    decide
  · decide
  · simp only [List.mem_append, hbase, hcmdline, or_false]
    decide
  · simp only [List.mem_append, hbase, or_false]
    decide
  · decide

theorem lines_stanzas (entries : List MenuEntry) :
    lines newline (entries.flatMap MenuEntry.stanza) = entries.flatMap MenuEntry.stanzaLines := by
  have htext : entries.flatMap MenuEntry.stanza =
      unlines newline (entries.flatMap MenuEntry.stanzaLines) := by
    rw [unlines, List.flatMap_assoc]
    rfl
  rw [htext, lines_unlines]
  intro line hline
  obtain ⟨e, -, hmem⟩ := List.mem_flatMap.mp hline
  exact newline_not_mem_stanzaLines hmem

/-- A file made by `nixgen-entry` is the stanzas in their order. -/
theorem entriesCfg_eq {entries : List MenuEntry} {cfg : Bytes} (h : entriesCfg entries = some cfg) :
    cfg = entries.flatMap MenuEntry.stanza := by
  induction entries using List.reverseRecOn generalizing cfg with
  | nil =>
      cases h
      rfl
  | append_singleton entries e ih =>
      rw [entriesCfg, List.foldlM_append] at h
      obtain ⟨before, hbefore, hstep⟩ := Option.bind_eq_some_iff.mp h
      rw [List.flatMap_append, ← ih hbefore, List.flatMap_singleton]
      simp only [List.foldlM_cons, List.foldlM_nil, bind_pure, nixgenEntry] at hstep
      split at hstep
      · cases hstep
      · exact (Option.some.inj hstep).symm

/-! ## The filter -/

/-- The line names a word of the pattern that `g` is, behind `menuentry `. -/
def Names (g line : Bytes) : Prop :=
  ∃ a w b, line = str "menuentry " ++ a ++ w ++ b ∧ w ∈ language (ereItems g)

theorem isEntryOf_iff {c : UInt8} {rest : Bytes} (hg : g = c :: rest) (hc : quantifierOf c = none) :
    isEntryOf g line = true ↔ Names g line := by
  have hany : ereItems (str "menuentry .*") =
      ereItems (str "menuentry ") ++ [{ literal 46 with times := .many }] := rfl
  have hplain : ∀ c ∈ str "menuentry ", quantifierOf c = none ∧ c ≠ 46 := by decide +kernel
  have hword : ∀ w, w ∈ language (ereItems (str "menuentry .*")) ↔ ∃ a, w = str "menuentry " ++ a := by
    intro w
    rw [hany, language_append, language_cons, language_nil, mul_one, Language.mem_mul]
    constructor
    · rintro ⟨u, hu, a, -, rfl⟩
      exact ⟨a, by rw [(language_ereItems hplain).mp hu]⟩
    · rintro ⟨a, rfl⟩
      refine ⟨_, (language_ereItems hplain).mpr rfl, a, ?_, rfl⟩
      exact mem_letters_kstar.mpr fun c _ => by simp [literal]
  rw [isEntryOf, matchPrefix_iff, hg, ereItems_append hc, ← hg, language_append]
  constructor
  · rintro ⟨u, b, rfl, hu⟩
    obtain ⟨v, hv, w, hw, rfl⟩ := Language.mem_mul.mp hu
    obtain ⟨a, rfl⟩ := (hword v).mp hv
    exact ⟨a, w, b, rfl, hw⟩
  · rintro ⟨a, w, b, rfl, hw⟩
    exact ⟨str "menuentry " ++ a ++ w, b, rfl,
      Language.append_mem_mul ((hword _).mpr ⟨a, rfl⟩) hw⟩

/-- A generation's name begins with a character of its hash. -/
theorem baseName_head (gen : GenName) :
    ∃ c rest, gen.baseName = c :: rest ∧ quantifierOf c = none := by
  obtain ⟨c, rest, hhash⟩ := List.exists_cons_of_length_eq_add_one gen.hash_length
  have hplain : ∀ c ∈ BaseNix32.characters, quantifierOf c = none := by decide +kernel
  refine ⟨c, rest ++ str "-" ++ gen.name, by simp [GenName.baseName, hhash], ?_⟩
  exact hplain c (isHashChar_iff.mp (gen.hash_chars c (by simp [hhash])))

/-- A whole stanza is passed over or kept, as its first line says. -/
theorem pruneLines_stanza {isEntry : Bytes → Bool} (e : MenuEntry) (rest : List Bytes)
    (htail : ∀ line ∈ e.stanzaLines.tail, isEntry line = false) :
    pruneLines isEntry false (e.stanzaLines ++ rest) =
      (if isEntry e.menuLine then [] else e.stanzaLines) ++ pruneLines isEntry false rest := by
  have hmenu : (str "\x7d").isPrefixOf e.menuLine = false := rfl
  have hsearch := htail (str "\tsearch --no-floppy --set=nixdev --label NIXSTORE") (by
    simp [MenuEntry.stanzaLines])
  have hclose := htail (str "\x7d") (by simp [MenuEntry.stanzaLines])
  rw [MenuEntry.stanzaLines] at htail ⊢
  generalize hlinux : str "\tlinux ($nixdev)/nix/store/" ++ e.gen.baseName ++
    str "/boot/vmlinuz-linux nixgen=" ++ e.gen.baseName ++ str " nixsource=disk " ++ e.cmdline = linux
    at htail ⊢
  generalize hinitrd : str "\tinitrd ($nixdev)/nix/store/" ++ e.gen.baseName ++
    str "/boot/initramfs-linux.img" = initrd at htail ⊢
  have hlinux' : (str "\x7d").isPrefixOf linux = false := by rw [← hlinux]; rfl
  have hinitrd' : (str "\x7d").isPrefixOf initrd = false := by rw [← hinitrd]; rfl
  have hsearch' : (str "\x7d").isPrefixOf (str "\tsearch --no-floppy --set=nixdev --label NIXSTORE") =
      false := by decide
  have hclose' : (str "\x7d").isPrefixOf (str "\x7d") = true := by decide
  have hlinux'' := htail linux (by simp)
  have hinitrd'' := htail initrd (by simp)
  cases hentry : isEntry e.menuLine with
  | true => simp [pruneLines, hentry, hmenu, hsearch', hlinux', hinitrd', hclose']
  | false => simp [pruneLines, hentry, hsearch, hlinux'', hinitrd'', hclose]

theorem pruneLines_stanzas {isEntry : Bytes → Bool} (entries : List MenuEntry)
    (htail : ∀ e ∈ entries, ∀ line ∈ e.stanzaLines.tail, isEntry line = false) :
    pruneLines isEntry false (entries.flatMap MenuEntry.stanzaLines) =
      (entries.filter fun e => !isEntry e.menuLine).flatMap MenuEntry.stanzaLines := by
  induction entries with
  | nil => rfl
  | cons e entries ih =>
      rw [List.flatMap_cons, pruneLines_stanza e _ (htail e (by simp)),
        ih fun e' he' => htail e' (List.mem_cons_of_mem _ he')]
      cases hentry : isEntry e.menuLine with
      | true => rw [List.filter_cons_of_neg (by simp [hentry]), if_pos rfl, List.nil_append]
      | false => rw [List.filter_cons_of_pos (by simp [hentry]), List.flatMap_cons]; rfl

/-- Only first lines of stanzas begin as the pattern does. -/
theorem isEntryOf_tail (gen : GenName) (h : line ∈ e.stanzaLines.tail) :
    isEntryOf gen.baseName line = false := by
  obtain ⟨c, rest, hg, hc⟩ := baseName_head gen
  rw [Bool.eq_false_iff, ne_eq, isEntryOf_iff hg hc]
  rintro ⟨a, w, b, rfl, -⟩
  simp only [MenuEntry.stanzaLines, List.tail_cons, List.mem_cons, List.not_mem_nil, or_false] at h
  -- an `m` is no tab and no brace
  rcases h with h | h | h | h <;> cases congrArg List.head? h

theorem menuLine_injective {e e' : MenuEntry} (h : e.menuLine = e'.menuLine) :
    e.gen.baseName = e'.gen.baseName := by
  have hsplit (e : MenuEntry) : ((e.menuLine.drop (str "menuentry \"nixarch: ").length).takeWhile
      (· ≠ 32)) = e.gen.baseName := by
    have hsolid : ∀ c ∈ e.gen.baseName, decide (c ≠ 32) = true := fun c hc => by
      simpa using fun heq : c = 32 => space_not_mem_baseName (heq ▸ hc)
    rw [MenuEntry.menuLine, List.append_assoc, List.append_assoc, List.append_assoc, List.drop_left,
      List.takeWhile_append_of_pos hsolid]
    exact List.append_nil _
  rw [← hsplit e, h, hsplit e']

/-- The generations are read off a file of stanzas. -/
theorem baseNames_of_stanzaLines {entries entries' : List MenuEntry}
    (h : entries.flatMap MenuEntry.stanzaLines = entries'.flatMap MenuEntry.stanzaLines) :
    entries.map (·.gen.baseName) = entries'.map (·.gen.baseName) := by
  induction entries generalizing entries' with
  | nil =>
      cases entries' with
      | nil => rfl
      | cons e' entries' => cases h
  | cons e entries ih =>
      cases entries' with
      | nil => cases h
      | cons e' entries' =>
          rw [List.flatMap_cons, List.flatMap_cons] at h
          obtain ⟨hstanza, hrest⟩ := List.append_inj h rfl
          have hmenu : e.menuLine = e'.menuLine := (List.cons.inj hstanza).1
          rw [List.map_cons, List.map_cons, menuLine_injective hmenu, ih hrest]

theorem unlines_stanzaLines_inj {entries entries' : List MenuEntry}
    (h : entries.flatMap MenuEntry.stanza = entries'.flatMap MenuEntry.stanza) :
    entries.flatMap MenuEntry.stanzaLines = entries'.flatMap MenuEntry.stanzaLines := by
  rw [← lines_stanzas, h, lines_stanzas]

theorem prune_eq (gen : GenName) (entries : List MenuEntry) :
    prune gen.baseName (entries.flatMap MenuEntry.stanza) =
      (entries.filter fun e => !isEntryOf gen.baseName e.menuLine).flatMap MenuEntry.stanza := by
  rw [prune, lines_stanzas, pruneLines_stanzas entries fun e _ line => isEntryOf_tail gen, unlines,
    List.flatMap_assoc]
  rfl

/-- A name without `+` and `?` is found in its own entry. -/
theorem names_menuLine (h : ∀ c ∈ e.gen.baseName, quantifierOf c = none) :
    Names e.gen.baseName e.menuLine := by
  refine ⟨str "\"nixarch: ", e.gen.baseName, str " (" ++ e.tag ++ str ")\" \x7b", ?_,
    mem_language_ereItems h⟩
  rw [MenuEntry.menuLine]
  simp only [← List.append_assoc]
  rfl

end Lines

/-- The filter takes out the generation's stanza and no other if and only if its menu line,
and no other one, contains a word of the regular expression that its name is. -/
theorem prune_exact_iff {entries : List MenuEntry} {cfg : Bytes} (hmade : entriesCfg entries = some cfg)
    (hdistinct : (entries.map (·.gen.baseName)).Nodup) {e : MenuEntry} (he : e ∈ entries) :
    prune e.gen.baseName cfg =
        (entries.filter fun e' => e'.gen.baseName ≠ e.gen.baseName).flatMap MenuEntry.stanza ↔
      ∀ e' ∈ entries, Names e.gen.baseName e'.menuLine ↔ e' = e := by
  obtain ⟨c, rest, hg, hc⟩ := baseName_head e.gen
  have hsame : ∀ e' ∈ entries, e'.gen.baseName = e.gen.baseName ↔ e' = e := fun e' he' =>
    ⟨fun h => List.inj_on_of_nodup_map hdistinct he' he h, fun h => by rw [h]⟩
  rw [entriesCfg_eq hmade, prune_eq]
  constructor
  · intro h e' he'
    rw [← isEntryOf_iff hg hc, ← hsame e' he']
    have hnames := baseNames_of_stanzaLines (unlines_stanzaLines_inj h)
    have hmem (keep : MenuEntry → Bool) :
        e'.gen.baseName ∈ (entries.filter keep).map (·.gen.baseName) ↔ keep e' = true := by
      constructor
      · intro hmem
        obtain ⟨e'', he'', hname⟩ := List.mem_map.mp hmem
        obtain ⟨hin, hkeep⟩ := List.mem_filter.mp he''
        rwa [List.inj_on_of_nodup_map hdistinct hin he' hname] at hkeep
      · exact fun hkeep => List.mem_map_of_mem (List.mem_filter.mpr ⟨he', hkeep⟩)
    have hkept := (hmem _).symm.trans ((Eq.to_iff (congrArg (e'.gen.baseName ∈ ·) hnames)).trans (hmem _))
    rw [← not_iff_not]
    simpa using hkept
  · intro h
    congr 1
    refine List.filter_congr fun e' he' => ?_
    have hiff := (isEntryOf_iff hg hc).trans ((h e' he').trans (hsame e' he').symm)
    by_cases heq : e'.gen.baseName = e.gen.baseName
    · simp [heq, hiff.mpr heq]
    · simp [heq, mt hiff.mp heq]

/-- An entry of a generation with a hash of zeros. -/
def zeroEntry (name : Bytes) (h : checkName name = .ok ()) : MenuEntry :=
  ⟨⟨List.replicate 32 48, name, rfl, by decide +kernel, h⟩, str "committed", str "quiet", by decide⟩

/-- Two generations whose names do not contain one another. -/
theorem prune_exact_base :
    prune (zeroEntry (str "base") rfl).gen.baseName
        ((zeroEntry (str "base") rfl).stanza ++ (zeroEntry (str "new") rfl).stanza) =
      (zeroEntry (str "new") rfl).stanza := by
  have hmade : entriesCfg [zeroEntry (str "base") rfl, zeroEntry (str "new") rfl] =
      some ((zeroEntry (str "base") rfl).stanza ++ (zeroEntry (str "new") rfl).stanza) := by
    decide +kernel
  have hother : isEntryOf (zeroEntry (str "base") rfl).gen.baseName
      (zeroEntry (str "new") rfl).menuLine = false := by decide +kernel
  obtain ⟨c, rest, hg, hc⟩ := baseName_head (zeroEntry (str "base") rfl).gen
  have hne : zeroEntry (str "new") rfl ≠ zeroEntry (str "base") rfl := fun h => by
    have hname := congrArg (fun e : MenuEntry => e.gen.name) h
    revert hname
    decide
  have hexact := (prune_exact_iff hmade (by decide +kernel) List.mem_cons_self).mpr (by
    intro e' he'
    simp only [List.mem_cons, List.not_mem_nil, or_false] at he'
    rcases he' with rfl | rfl
    · exact iff_of_true (names_menuLine (by decide +kernel)) rfl
    · refine iff_of_false (fun hnames => ?_) hne
      rw [(isEntryOf_iff hg hc).mpr hnames] at hother
      cases hother)
  rw [hexact]
  decide +kernel

/-- `k+3` is one `k` or more before a `3`, and the menu line has none. -/
theorem gtk_not_pruned :
    entriesCfg [zeroEntry (str "gtk+3") rfl] = some (zeroEntry (str "gtk+3") rfl).stanza ∧
    prune (zeroEntry (str "gtk+3") rfl).gen.baseName (zeroEntry (str "gtk+3") rfl).stanza ≠
      ([zeroEntry (str "gtk+3") rfl].filter fun e' =>
        e'.gen.baseName ≠ (zeroEntry (str "gtk+3") rfl).gen.baseName).flatMap MenuEntry.stanza := by
  decide +kernel

end Nixgen
end Archinix
