import Archinix.Util.ArchiveRoundTrip

/-!
# Skipping the contents of an archive

`parseDump` into a sink that sets `skipContents`, compared with `parseDump` into a sink
that takes the contents.  The first never looks at the padding after a file's contents,
and rounds sizes up in a `uint64_t`.

`skip_agrees_iff` says on which byte strings the two agree.
-/

namespace Archinix
namespace Util

open Foundation

/-- `parseDump` into a `NullFileSystemObjectSink`, no method of which throws: the bytes left
unread. -/
def parseIntoNull (reads : ReadSizes) (src : Bytes) : Except Error Bytes :=
  (parseDump ⟨true, reads⟩ src).result.map (·.2)

/-! ## Framings with any padding -/

/-- The contents of a file with their size, and any bytes in place of the padding. -/
def looseBlock (contents bs : Bytes) : Prop :=
  contents.length < 2 ^ 64 ∧ ∃ pad : Bytes, pad.length = (padding contents.length).length ∧
    bs = littleEndian contents.length ++ contents ++ pad

/-- The sizes that `alignUp` rounds up without an overflow. -/
inductive Tree.FilesFit : Tree → Prop
  | regular (executable : Bool) {contents : Bytes} (h : contents.length ≤ 2 ^ 64 - 8) :
      FilesFit (.regular executable contents)
  | symlink (target : Bytes) : FilesFit (.symlink target)
  | directory {entries : List (Name × Tree)} (h : ∀ e ∈ entries, FilesFit e.2) :
      FilesFit (.directory entries)

section Framing

variable {reads : ReadSizes} {t u : Tree} {bs cs x y : Bytes}

theorem Framed.mono {block block' : Bytes → Bytes → Prop} (h : Framed block t bs)
    (hblock : ∀ contents bs, block contents bs → block' contents bs) : Framed block' t bs := by
  induction h with
  | regular executable h => exact .regular executable (hblock _ _ h)
  | symlink htarget => exact .symlink htarget
  | directory hnames hsorted _ ih => exact .directory hnames hsorted ih

theorem exactBlock_loose {contents : Bytes} (h : exactBlock contents bs) :
    looseBlock contents bs :=
  ⟨h.1, padding contents.length, rfl, h.2⟩

/-- What is skipped is framed with any padding, and fits. -/
theorem framed_skip_iff :
    Framed (⟨true, reads⟩ : ParseMode).Block t bs ↔ Framed looseBlock t bs ∧ t.FilesFit := by
  have hblock : ∀ contents bs, (⟨true, reads⟩ : ParseMode).Block contents bs ↔
      looseBlock contents bs ∧ contents.length ≤ 2 ^ 64 - 8 := by
    intro contents bs
    simp only [ParseMode.Block, if_true, looseBlock]
    constructor
    · rintro ⟨hsize, hpad⟩
      exact ⟨⟨by omega, hpad⟩, hsize⟩
    · rintro ⟨⟨-, hpad⟩, hsize⟩
      exact ⟨hsize, hpad⟩
  constructor
  · intro h
    refine ⟨h.mono fun contents bs hb => ((hblock contents bs).mp hb).1, ?_⟩
    induction h with
    | regular executable h => exact .regular executable ((hblock _ _).mp h).2
    | symlink htarget => exact .symlink _
    | directory _ _ _ ih =>
        refine .directory fun e he => ?_
        obtain ⟨item, hitem, rfl⟩ := List.mem_map.mp he
        exact ih item hitem
  · rintro ⟨h, hfit⟩
    induction h with
    | regular executable h =>
        cases hfit with
        | regular _ hsize => exact .regular executable ((hblock _ _).mpr ⟨h, hsize⟩)
    | symlink htarget => exact .symlink htarget
    | directory hnames hsorted _ ih =>
        cases hfit with
        | directory hfit =>
            exact .directory hnames hsorted fun e he =>
              ih e he (hfit _ (List.mem_map_of_mem he))

theorem Framed.representable (h : Framed looseBlock t bs) : t.Representable := by
  induction h with
  | regular executable h => exact .regular executable h.1
  | symlink htarget => exact .symlink htarget
  | @directory items hnames hsorted _ ih =>
      refine .directory ?_ (by simpa [Item.entry, Function.comp_def] using hsorted) ?_
      · simpa [Item.entry] using hnames
      · simpa [Item.entry] using ih

theorem framed_encodeNode (h : t.Representable) : Framed looseBlock t t.encodeNode :=
  (framed_iff.mpr ⟨h, rfl⟩).mono fun _ _ => exactBlock_loose

/-! ### A framing is read in one way only -/

/-- A reader returns one result. -/
theorem Reads.unique {ω α : Type} {p : Reader ω α} {out out' : List ω} {a a' : α}
    (h : Reads p bs out a) (h' : Reads p cs out' a') (heq : bs ++ x = cs ++ y) :
    a = a' ∧ x = y := by
  have hrun := h x
  rw [heq, h' y] at hrun
  simp only [Emit.mk.injEq, Except.ok.injEq, Prod.mk.injEq] at hrun
  exact ⟨hrun.2.1.symm, hrun.2.2.symm⟩

theorem encodeString_append_inj {a b : Bytes} (ha : a.length < 2 ^ 64) (hb : b.length < 2 ^ 64)
    (h : encodeString a ++ x = encodeString b ++ y) : a = b ∧ x = y :=
  have hread : ∀ {c : Bytes}, c.length < 2 ^ 64 →
      Reads (readString (2 ^ 64) : Reader Empty Bytes) (encodeString c) [] c :=
    fun hc => reads_readString hc.le hc
  (hread ha).unique (hread hb) h

theorem looseBlock_append_inj {a b : Bytes} (ha : looseBlock a bs) (hb : looseBlock b cs)
    (h : bs ++ x = cs ++ y) : a = b ∧ bs = cs ∧ x = y := by
  obtain ⟨hsize, pad, hpad, rfl⟩ := ha
  obtain ⟨hsize', pad', hpad', rfl⟩ := hb
  simp only [List.append_assoc] at h
  obtain ⟨hlen, h⟩ := (reads_readLongLong (ω := Empty) hsize).unique (reads_readLongLong hsize') h
  obtain ⟨rfl, hrest⟩ := List.append_inj h hlen
  obtain ⟨rfl, rfl⟩ := List.append_inj hrest (hpad.trans hpad'.symm)
  exact ⟨rfl, rfl, rfl⟩

theorem frameRegular_append_inj {executable executable' : Bool} {a b : Bytes}
    (ha : looseBlock a bs) (hb : looseBlock b cs)
    (h : frameRegular executable bs ++ x = frameRegular executable' cs ++ y) :
    executable = executable' ∧ a = b ∧ bs = cs ∧ x = y := by
  have hbody : ∀ {x y : Bytes},
      encodeString (str "contents") ++ (bs ++ (encodeString (str ")") ++ x)) =
        encodeString (str "contents") ++ (cs ++ (encodeString (str ")") ++ y)) →
      a = b ∧ bs = cs ∧ x = y := by
    intro x y h
    obtain ⟨hab, hbs, h⟩ := looseBlock_append_inj ha hb (List.append_cancel_left h)
    exact ⟨hab, hbs, List.append_cancel_left h⟩
  have hmarker : ∀ {x y : Bytes}, encodeString (str "executable") ++ x ≠
      encodeString (str "contents") ++ y := by
    intro x y h
    exact absurd (encodeString_append_inj (by decide) (by decide) h).1 (by decide)
  cases executable <;> cases executable' <;>
    simp only [frameRegular, Bool.false_eq_true, if_false, if_true, List.nil_append,
      List.append_assoc] at h
  · exact ⟨rfl, hbody h⟩
  · exact absurd h.symm hmarker
  · exact absurd h hmarker
  · exact ⟨rfl, hbody (List.append_cancel_left (List.append_cancel_left h))⟩

/-- Entries that are read in one way each are read in one way together. -/
theorem frameEntries_append_inj {items items' : List Item}
    (hnames : ∀ e ∈ items, ValidName e.name) (hnames' : ∀ e ∈ items', ValidName e.name)
    (hchildren : ∀ e ∈ items, ∀ e' ∈ items', ∀ x y, e.node ++ x = e'.node ++ y →
      e.tree = e'.tree ∧ e.node = e'.node ∧ x = y)
    (h : frameEntries (items.map Item.framed) ++ x = frameEntries (items'.map Item.framed) ++ y) :
    items = items' ∧ x = y := by
  have hend : ∀ {x y : Bytes}, encodeString (str ")") ++ x ≠ encodeString (str "entry") ++ y := by
    intro x y h
    exact absurd (encodeString_append_inj (by decide) (by decide) h).1 (by decide)
  induction items generalizing items' with
  | nil =>
      cases items' with
      | nil => exact ⟨rfl, List.append_cancel_left h⟩
      | cons e' rest' =>
          simp only [List.map_nil, List.map_cons, frameEntries, Item.framed, List.append_assoc] at h
          exact absurd h hend
  | cons e rest ih =>
      cases items' with
      | nil =>
          simp only [List.map_nil, List.map_cons, frameEntries, Item.framed, List.append_assoc] at h
          exact absurd h.symm hend
      | cons e' rest' =>
          simp only [List.map_cons, frameEntries, Item.framed, List.append_assoc] at h
          have hshort : ∀ {name : Name}, ValidName name → name.length < 2 ^ 64 := fun hname =>
            hname.bounded.trans_lt (by decide)
          obtain ⟨hname, h⟩ := encodeString_append_inj (hshort (hnames e (by simp)))
            (hshort (hnames' e' (by simp)))
            (List.append_cancel_left (List.append_cancel_left (List.append_cancel_left h)))
          obtain ⟨htree, hnode, h⟩ := hchildren e (by simp) e' (by simp) _ _
            (List.append_cancel_left h)
          obtain ⟨rfl, hxy⟩ := ih (fun e he => hnames e (List.mem_cons_of_mem _ he))
            (fun e he => hnames' e (List.mem_cons_of_mem _ he))
            (fun e he e' he' => hchildren e (List.mem_cons_of_mem _ he) e'
              (List.mem_cons_of_mem _ he'))
            (List.append_cancel_left h)
          obtain ⟨name, tree, node⟩ := e
          obtain ⟨name', tree', node'⟩ := e'
          simp only at hname htree hnode
          subst hname htree hnode
          exact ⟨rfl, hxy⟩

theorem encodeNode_symlink_append (target x : Bytes) : (Tree.symlink target).encodeNode ++ x =
    encodeString (str "(") ++ (encodeString (str "type") ++ (encodeString (str "symlink") ++
      (encodeString (str "target") ++ (encodeString target ++ (encodeString (str ")") ++ x))))) := by
  simp [Tree.encodeNode]

/-- The kind of a node is read first. -/
theorem framed_kind_inj {a b x y : Bytes} (ha : a.length ≤ narMaxTag) (hb : b.length ≤ narMaxTag)
    (h : encodeString (str "(") ++ (encodeString (str "type") ++ (encodeString a ++ x)) =
      encodeString (str "(") ++ (encodeString (str "type") ++ (encodeString b ++ y))) :
    a = b ∧ x = y :=
  encodeString_append_inj (ha.trans_lt (by decide)) (hb.trans_lt (by decide))
    (List.append_cancel_left (List.append_cancel_left h))

theorem framed_append_inj (ht : Framed looseBlock t bs) (hu : Framed looseBlock u cs)
    (h : bs ++ x = cs ++ y) : t = u ∧ bs = cs ∧ x = y := by
  have hkinds : str "regular" ≠ str "symlink" ∧ str "regular" ≠ str "directory" ∧
      str "symlink" ≠ str "directory" := by decide
  induction ht generalizing u cs x y with
  | @regular executable contents block hblock =>
      cases hu with
      | @regular executable' contents' block' hblock' =>
          simp only [List.append_assoc] at h
          obtain ⟨-, h⟩ := framed_kind_inj (by decide) (by decide) h
          obtain ⟨rfl, rfl, rfl, rfl⟩ := frameRegular_append_inj hblock hblock' h
          exact ⟨rfl, rfl, rfl⟩
      | symlink _ =>
          rw [encodeNode_symlink_append] at h
          simp only [List.append_assoc] at h
          exact absurd (framed_kind_inj (by decide) (by decide) h).1 hkinds.1
      | directory _ _ _ =>
          simp only [List.append_assoc] at h
          exact absurd (framed_kind_inj (by decide) (by decide) h).1 hkinds.2.1
  | @symlink target htarget =>
      rw [encodeNode_symlink_append] at h
      cases hu with
      | regular _ _ =>
          simp only [List.append_assoc] at h
          exact absurd (framed_kind_inj (by decide) (by decide) h).1 (Ne.symm hkinds.1)
      | @symlink target' htarget' =>
          rw [encodeNode_symlink_append] at h
          obtain ⟨-, hbody⟩ := framed_kind_inj (by decide) (by decide) h
          obtain ⟨rfl, hclose⟩ := encodeString_append_inj (htarget.bounded.trans_lt (by decide))
            (htarget'.bounded.trans_lt (by decide)) (List.append_cancel_left hbody)
          exact ⟨rfl, rfl, List.append_cancel_left hclose⟩
      | directory _ _ _ =>
          simp only [List.append_assoc] at h
          exact absurd (framed_kind_inj (by decide) (by decide) h).1 hkinds.2.2
  | @directory items hnames hsorted hchildren ih =>
      cases hu with
      | regular _ _ =>
          simp only [List.append_assoc] at h
          exact absurd (framed_kind_inj (by decide) (by decide) h).1 (Ne.symm hkinds.2.1)
      | symlink _ =>
          rw [encodeNode_symlink_append] at h
          simp only [List.append_assoc] at h
          exact absurd (framed_kind_inj (by decide) (by decide) h).1 (Ne.symm hkinds.2.2)
      | @directory items' hnames' hsorted' hchildren' =>
          simp only [List.append_assoc] at h
          obtain ⟨-, h⟩ := framed_kind_inj (by decide) (by decide) h
          obtain ⟨rfl, rfl⟩ := frameEntries_append_inj hnames hnames'
            (fun e he e' he' x y hxy => ih e he (hchildren' e' he') hxy) h
          exact ⟨rfl, rfl, rfl⟩

end Framing

/-! ## Agreement -/

section Agreement

variable (displayPrefix : Bytes) (reads reads' : ReadSizes)

/-- Skipping the contents and taking them agree on a byte string: both parses succeed or
neither does, and they consume the same number of bytes. -/
structure SkipAgrees (src : Bytes) : Prop where
  accepts : (∃ rest, parseIntoNull reads src = .ok rest) ↔
    ∃ root rest, parseIntoMemory displayPrefix reads' src = .ok (root, rest)
  consumed : ∀ rest root rest', parseIntoNull reads src = .ok rest →
    parseIntoMemory displayPrefix reads' src = .ok (root, rest') →
      src.length - rest.length = src.length - rest'.length

/-- The byte string starts with an archive of `t`, with any bytes for the padding after the
contents of files; `node` is what follows the version string. -/
def StartsWithFraming (src : Bytes) (t : Tree) (node : Bytes) : Prop :=
  Framed looseBlock t node ∧ t.height ≤ narMaxDepth ∧
    ∃ rest, src = encodeString narVersionMagic1 ++ node ++ rest

variable {displayPrefix reads reads'} {src : Bytes}

theorem parseIntoNull_eq_ok {rest : Bytes} : parseIntoNull reads src = .ok rest ↔
    ∃ t node, Framed looseBlock t node ∧ t.FilesFit ∧ t.height ≤ narMaxDepth ∧
      src = encodeString narVersionMagic1 ++ node ++ rest := by
  constructor
  · intro h
    rcases hrun : parseDump ⟨true, reads⟩ src with ⟨out, e | ⟨⟨⟩, left⟩⟩
    · rw [parseIntoNull, hrun] at h
      cases h
    · rw [parseIntoNull, hrun] at h
      obtain rfl : left = rest := Except.ok.inj h
      obtain ⟨bs, rfl, t, node, hframed, hheight, rfl, -⟩ :=
        accepts_parseDump_framed src out () left hrun
      obtain ⟨hloose, hfit⟩ := framed_skip_iff.mp hframed
      exact ⟨t, node, hloose, hfit, hheight, rfl⟩
  · rintro ⟨t, node, hloose, hfit, hheight, rfl⟩
    have hframed : Framed (⟨true, reads⟩ : ParseMode).Block t node :=
      framed_skip_iff.mpr ⟨hloose, hfit⟩
    have hrun := reads_parseDump_framed hframed hheight rest
    rw [parseIntoNull, hrun]
    rfl

theorem parseIntoMemory_eq_ok {rest : Bytes} :
    (∃ root, parseIntoMemory displayPrefix reads' src = .ok (root, rest)) ↔
      ∃ t : Tree, Framed looseBlock t t.encodeNode ∧ t.height ≤ narMaxDepth ∧
        src = encodeString narVersionMagic1 ++ t.encodeNode ++ rest := by
  constructor
  · rintro ⟨root, h⟩
    obtain ⟨t, -, ht, hheight, rfl⟩ := nar_of_parseIntoMemory h
    exact ⟨t, framed_encodeNode ht, hheight, rfl⟩
  · rintro ⟨t, ht, hheight, rfl⟩
    exact ⟨some t, parseIntoMemory_nar displayPrefix reads' ht.representable hheight rest⟩

/-- A string starts with one framing. -/
theorem StartsWithFraming.unique {t u : Tree} {node node' rest rest' : Bytes}
    (ht : Framed looseBlock t node) (hu : Framed looseBlock u node')
    (hsrc : src = encodeString narVersionMagic1 ++ node ++ rest)
    (hsrc' : src = encodeString narVersionMagic1 ++ node' ++ rest') :
    t = u ∧ node = node' ∧ rest = rest' := by
  rw [hsrc, List.append_assoc, List.append_assoc] at hsrc'
  exact framed_append_inj ht hu (List.append_cancel_left hsrc')

/-- Skipping and reading agree on exactly the byte strings that do not start with an archive
of which some padding after contents is not zero, or, which no memory holds, some file is too
large for `alignUp`. -/
theorem skip_agrees_iff (displayPrefix : Bytes) (reads reads' : ReadSizes) (src : Bytes) :
    SkipAgrees displayPrefix reads reads' src ↔
      ¬ ∃ t node, StartsWithFraming src t node ∧ ¬ (t.FilesFit ↔ node = t.encodeNode) := by
  have hmemory : (∃ root rest, parseIntoMemory displayPrefix reads' src = .ok (root, rest)) ↔
      ∃ rest, ∃ t : Tree, Framed looseBlock t t.encodeNode ∧ t.height ≤ narMaxDepth ∧
        src = encodeString narVersionMagic1 ++ t.encodeNode ++ rest := by
    rw [exists_comm]
    exact exists_congr fun rest => parseIntoMemory_eq_ok
  constructor
  · rintro h ⟨t, node, ⟨hframed, hheight, rest, hsrc⟩, hne⟩
    -- the string is read as `t` by both modes or by neither
    refine hne ⟨fun hfit => ?_, fun hnode => ?_⟩
    · have hnull : ∃ rest, parseIntoNull reads src = .ok rest :=
        ⟨rest, parseIntoNull_eq_ok.mpr ⟨t, node, hframed, hfit, hheight, hsrc⟩⟩
      obtain ⟨rest', u, hu, -, hsrc'⟩ := hmemory.mp (h.accepts.mp hnull)
      obtain ⟨rfl, hnode, -⟩ := StartsWithFraming.unique hframed hu hsrc hsrc'
      exact hnode
    · subst hnode
      obtain ⟨rest', hnull⟩ := h.accepts.mpr (hmemory.mpr ⟨rest, t, hframed, hheight, hsrc⟩)
      obtain ⟨u, node', hu, hfit, -, hsrc'⟩ := parseIntoNull_eq_ok.mp hnull
      obtain ⟨rfl, -, -⟩ := StartsWithFraming.unique hframed hu hsrc hsrc'
      exact hfit
  · intro h
    refine ⟨⟨fun ⟨rest, hnull⟩ => ?_, fun hroot => ?_⟩, fun rest root rest' hnull hroot => ?_⟩
    · obtain ⟨t, node, hframed, hfit, hheight, hsrc⟩ := parseIntoNull_eq_ok.mp hnull
      have hnode : node = t.encodeNode := by
        by_contra hne
        exact h ⟨t, node, ⟨hframed, hheight, rest, hsrc⟩, fun hiff => hne (hiff.mp hfit)⟩
      subst hnode
      exact hmemory.mpr ⟨rest, t, hframed, hheight, hsrc⟩
    · obtain ⟨rest, t, hframed, hheight, hsrc⟩ := hmemory.mp hroot
      have hfit : t.FilesFit := by
        by_contra hne
        exact h ⟨t, _, ⟨hframed, hheight, rest, hsrc⟩, fun hiff => hne (hiff.mpr rfl)⟩
      exact ⟨rest, parseIntoNull_eq_ok.mpr ⟨t, _, hframed, hfit, hheight, hsrc⟩⟩
    · obtain ⟨t, node, hframed, -, -, hsrc⟩ := parseIntoNull_eq_ok.mp hnull
      obtain ⟨u, hu, -, hsrc'⟩ := parseIntoMemory_eq_ok.mp ⟨root, hroot⟩
      rw [(StartsWithFraming.unique hframed hu hsrc hsrc').2.2]

/-- A file that holds one byte, with ones for the padding after it. -/
def paddedWithOnes : Bytes :=
  encodeString (str "(") ++ encodeString (str "type") ++ encodeString (str "regular") ++
    frameRegular false (littleEndian 1 ++ str "a" ++ List.replicate 7 1)

theorem skip_disagrees :
    ¬ SkipAgrees [] .whole .whole (encodeString narVersionMagic1 ++ paddedWithOnes) := by
  intro h
  have hframed : Framed looseBlock (.regular false (str "a")) paddedWithOnes :=
    .regular false ⟨by decide, List.replicate 7 1, by decide, rfl⟩
  have hsrc : encodeString narVersionMagic1 ++ paddedWithOnes =
      encodeString narVersionMagic1 ++ paddedWithOnes ++ [] := by simp
  have hnull : parseIntoNull .whole (encodeString narVersionMagic1 ++ paddedWithOnes) = .ok [] :=
    parseIntoNull_eq_ok.mpr ⟨_, _, hframed, .regular false (by decide), by decide, hsrc⟩
  obtain ⟨root, rest, hroot⟩ := h.accepts.mp ⟨[], hnull⟩
  obtain ⟨t, ht, -, hsrc'⟩ := parseIntoMemory_eq_ok.mp ⟨root, hroot⟩
  obtain ⟨rfl, hnode, -⟩ := StartsWithFraming.unique hframed ht hsrc hsrc'
  revert hnode
  decide

end Agreement

end Util
end Archinix
