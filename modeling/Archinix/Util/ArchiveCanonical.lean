import Archinix.Util.Archive

/-!
# The archive of a tree is canonical

What `parse` reads is the framing of a tree: its archive, where a mode that skips
contents takes any bytes for the padding after them (`Framed`).  It accepts every
framing with the calls that build the tree (`reads_parse`), and nothing else
(`accepts_parse`).  Both directions follow the structure of the parser, one lemma for
each of its functions.  Without `skipContents` the only framing of a representable
tree is its archive (`framed_iff`).
-/

namespace Archinix
namespace Util

open Foundation

/-! ## Byte order on names -/

theorem Name.lt_trans {a b c : Name} (hab : a < b) (hbc : b < c) : a < c :=
  List.lt_trans hab hbc

theorem Name.ne_of_lt {a b : Name} (h : a < b) : a ≠ b := by
  rintro rfl
  exact List.lt_irrefl a h

theorem Name.lt_of_not_lt {a b : Name} (h : ¬ a < b) (hne : a ≠ b) : b < a :=
  (List.le_iff_lt_or_eq.mp (List.not_lt.mp h)).resolve_right (Ne.symm hne)

theorem Name.nil_lt {a : Name} (h : a ≠ []) : ([] : Name) < a := by
  cases a with
  | nil => exact absurd rfl h
  | cons byte rest => exact List.nil_lt_cons byte rest

/-- The sortedness check of the parser fails exactly on a strict ascent. -/
theorem Name.not_le {a b : Name} : ¬ a ≤ b ↔ b < a := List.not_le

theorem invalidEntryName_eq_false {name : Name} (h : ValidName name) :
    ¬ invalidEntryName name = true := by
  simp [invalidEntryName, h.nonempty, h.notDot, h.notDotDot, h.noSlash, h.noNul]

theorem validName_of_parsed {name : Name} (hlen : name.length ≤ narMaxName)
    (h : ¬ invalidEntryName name = true) : ValidName name := by
  simp only [invalidEntryName, decide_eq_true_eq, not_or] at h
  exact ⟨h.1, hlen, h.2.1, h.2.2.1, h.2.2.2.1, h.2.2.2.2⟩

/-! ## Tags -/

theorem reads_call (c : SinkCall) : Reads (call c) [] [c] () := fun _ => rfl

theorem accepts_call (c : SinkCall) :
    Accepts (call c) fun bs out _ => bs = [] ∧ out = [c] := by
  intro src out a rest h
  simp only [call, Emit.mk.injEq, Except.ok.injEq, Prod.mk.injEq] at h
  obtain ⟨rfl, -, rfl⟩ := h
  exact ⟨[], rfl, rfl, rfl⟩

/-- A bounded string shorter than any 64-bit length reads back. -/
theorem reads_getString {s : Bytes} {max : Nat} (h : s.length ≤ max) (hmax : max < 2 ^ 64) :
    Reads (getString max) (encodeString s) [] s :=
  reads_readString h (h.trans_lt hmax)

theorem accepts_getString (max : Nat) :
    Accepts (getString max) fun bs out s => out = [] ∧ bs = encodeString s ∧ s.length ≤ max :=
  (accepts_readString max).mono fun _ _ _ ⟨hout, hbs, hmax, _⟩ => ⟨hout, hbs, hmax⟩

theorem reads_expectTag {tag : Bytes} (h : tag.length ≤ narMaxTag) :
    Reads (expectTag tag) (encodeString tag) [] () := by
  have hread : Reads (expectTag tag) _ _ () :=
    (reads_getString h (by decide)).bind (reads_throwIf (by simp) _)
  simpa using hread

theorem accepts_expectTag (tag : Bytes) :
    Accepts (expectTag tag) fun bs out _ => out = [] ∧ bs = encodeString tag := by
  refine (Accepts.bind (accepts_getString _) fun _ => accepts_throwIf _ _).mono ?_
  rintro bs out _ ⟨_, _, read, _, _, rfl, rfl, ⟨rfl, rfl, -⟩, rfl, rfl, htag⟩
  simp only [ne_eq, not_not] at htag
  simp [htag]

/-- An expected tag adds its encoding to what is read. -/
theorem Accepts.tag {β : Type} {tag : Bytes} {f : Unit → Parser β}
    {R : Bytes → List SinkCall → β → Prop}
    (hf : Accepts (f ()) fun bs out b => R (encodeString tag ++ bs) out b) :
    Accepts (expectTag tag >>= f) R := by
  refine (accepts_expectTag tag).andThen ?_
  rintro _ _ ⟨⟩ ⟨rfl, rfl⟩
  exact hf

/-! ## File contents -/

/-- The chunks in which the sink of a mode is given a file's contents. -/
def ParseMode.cut (mode : ParseMode) (contents : Bytes) : List Bytes :=
  if mode.skipContents then [] else mode.reads.cut contents

/-- What a mode reads as the contents of a file, with their size and padding. -/
def ParseMode.Block (mode : ParseMode) (contents bs : Bytes) : Prop :=
  if mode.skipContents then
    -- the padding is skipped, after a size that can be rounded up
    contents.length ≤ 2 ^ 64 - 8 ∧ ∃ pad : Bytes, pad.length = (padding contents.length).length ∧
      bs = littleEndian contents.length ++ contents ++ pad
  else contents.length < 2 ^ 64 ∧ bs = encodeString contents

section Parse

variable {mode : ParseMode}

theorem reads_drainInto (path : CanonPath) (contents : Bytes) :
    Reads (drainInto mode path contents.length) contents
      ((mode.reads.cut contents).map (SinkCall.contents path)) () := by
  intro rest
  simp [drainInto]

theorem accepts_drainInto (path : CanonPath) (len : Nat) :
    Accepts (drainInto mode path len) fun bs out _ =>
      bs.length = len ∧ out = (mode.reads.cut bs).map (SinkCall.contents path) := by
  intro src out a rest h
  by_cases hlen : src.length < len
  · simp [drainInto, hlen] at h
  · simp only [drainInto, hlen, if_false, Emit.mk.injEq, Except.ok.injEq, Prod.mk.injEq] at h
    obtain ⟨rfl, -, rfl⟩ := h
    exact ⟨src.take len, (List.take_append_drop len src).symm, by simp; omega, rfl⟩

/-- `alignUp` adds the padding, and fails on the last sizes of a `uint64_t`. -/
theorem alignUp_eq (size : Nat) (h : size ≤ 2 ^ 64 - 8) :
    alignUp size = .ok (size + (padding size).length) := by
  rw [alignUp, if_neg (by omega), padding_length]
  congr 1
  omega

theorem alignUp_eq_ok {size left : Nat} (h : alignUp size = .ok left) :
    size ≤ 2 ^ 64 - 8 ∧ left = size + (padding size).length := by
  have hle : size ≤ 2 ^ 64 - 8 := by
    by_contra hlarge
    rw [alignUp, if_pos (by omega)] at h
    cases h
  rw [alignUp_eq size hle] at h
  exact ⟨hle, (Except.ok.inj h).symm⟩

theorem reads_skip (bs : Bytes) : Reads (skip bs.length : Parser Unit) bs [] () := by
  intro rest
  simp [skip]

theorem accepts_skip (len : Nat) :
    Accepts (skip len : Parser Unit) fun bs out _ => bs.length = len ∧ out = [] := by
  intro src out a rest h
  by_cases hlen : src.length < len
  · simp [skip, hlen] at h
  · simp only [skip, hlen, if_false, Emit.mk.injEq, Except.ok.injEq, Prod.mk.injEq] at h
    obtain ⟨rfl, -, rfl⟩ := h
    exact ⟨src.take len, (List.take_append_drop len src).symm, by simp; omega, rfl⟩

/-- The size check of a mode that skips contents. -/
def aligned (size : Nat) : Parser Nat := fun src => ⟨[], (alignUp size).map (·, src)⟩

theorem reads_aligned {size : Nat} (h : size ≤ 2 ^ 64 - 8) :
    Reads (aligned size) [] [] (size + (padding size).length) := by
  intro rest
  simp [aligned, alignUp_eq size h, Except.map]

theorem accepts_aligned (size : Nat) : Accepts (aligned size) fun bs out left =>
    bs = [] ∧ out = [] ∧ size ≤ 2 ^ 64 - 8 ∧ left = size + (padding size).length := by
  intro src out left rest h
  rcases halign : alignUp size with e | n
  · simp [aligned, halign, Except.map] at h
  · simp only [aligned, halign, Except.map, Emit.mk.injEq, Except.ok.injEq, Prod.mk.injEq] at h
    obtain ⟨rfl, rfl, rfl⟩ := h
    obtain ⟨hle, rfl⟩ := alignUp_eq_ok halign
    exact ⟨[], rfl, rfl, rfl, hle, rfl⟩

theorem parseContents_eq (mode : ParseMode) (path : CanonPath) : parseContents mode path =
    (readLongLong >>= fun size => call (.preallocateContents path size) >>= fun _ =>
      if mode.skipContents then aligned size >>= fun left => skip left
      else drainInto mode path size >>= fun _ => readPadding size) := rfl

theorem reads_parseContents (path : CanonPath) {contents bs : Bytes}
    (h : mode.Block contents bs) :
    Reads (parseContents mode path) bs ([.preallocateContents path contents.length] ++
      (mode.cut contents).map (SinkCall.contents path)) () := by
  rw [parseContents_eq]
  unfold ParseMode.Block at h
  unfold ParseMode.cut
  cases hmode : mode.skipContents with
  | true =>
      rw [hmode, if_pos rfl] at h
      obtain ⟨hsize, pad, hpad, rfl⟩ := h
      have hskip : Reads (skip (contents.length + (padding contents.length).length) : Parser Unit)
          (contents ++ pad) [] () := by
        have hread := reads_skip (contents ++ pad)
        rwa [List.length_append, hpad] at hread
      have hread : Reads (readLongLong >>= fun size => call (.preallocateContents path size) >>=
          fun _ => aligned size >>= fun left => skip left : Parser Unit) _ _ () :=
        (reads_readLongLong (by omega)).bind
          ((reads_call _).bind ((reads_aligned hsize).bind hskip))
      simpa using hread
  | false =>
      rw [hmode, if_neg (by simp)] at h
      obtain ⟨hsize, rfl⟩ := h
      have hread : Reads (readLongLong >>= fun size => call (.preallocateContents path size) >>=
          fun _ => drainInto mode path size >>= fun _ => readPadding size : Parser Unit) _ _ () :=
        (reads_readLongLong hsize).bind ((reads_call _).bind
          ((reads_drainInto path contents).bind (reads_readPadding contents.length)))
      simpa [encodeString] using hread

theorem accepts_parseContents (path : CanonPath) :
    Accepts (parseContents mode path) fun bs out _ =>
      ∃ contents, mode.Block contents bs ∧ out = [.preallocateContents path contents.length] ++
        (mode.cut contents).map (SinkCall.contents path) := by
  rw [parseContents_eq]
  unfold ParseMode.Block ParseMode.cut
  refine accepts_readLongLong.andThen ?_
  rintro _ _ size ⟨rfl, rfl, hsize⟩
  refine (accepts_call _).andThen ?_
  rintro _ _ ⟨⟩ ⟨rfl, rfl⟩
  cases mode.skipContents with
  | true =>
      refine (accepts_aligned size).andThen ?_
      rintro _ _ left ⟨rfl, rfl, hle, rfl⟩
      refine (accepts_skip _).mono ?_
      rintro bs _ ⟨⟩ ⟨hlen, rfl⟩
      have htake : (bs.take size).length = size := by
        rw [List.length_take]
        omega
      refine ⟨bs.take size, ?_, by rw [htake]; simp⟩
      rw [if_pos rfl, htake]
      refine ⟨hle, bs.drop size, ?_, by simp⟩
      rw [List.length_drop]
      omega
  | false =>
      refine (Accepts.bind (accepts_drainInto path size) fun _ => accepts_readPadding size).mono ?_
      rintro bs out _ ⟨contents, _, _, _, _, rfl, rfl, ⟨rfl, rfl⟩, rfl, rfl⟩
      exact ⟨contents, by rw [if_neg (by simp)]; exact ⟨hsize, by simp [encodeString]⟩, by simp⟩

/-! ## Regular files and symlinks -/

/-- The optional marker, read together with the tag that follows it. -/
theorem reads_parseExecutable_marked (path : CanonPath) {tag : Bytes}
    (htag : tag.length ≤ narMaxTag) :
    Reads (parseExecutable path (str "executable")) (encodeString [] ++ encodeString tag)
      [.isExecutable path] tag := by
  unfold parseExecutable
  rw [if_pos rfl]
  have hread : Reads (getString 0 >>= fun s2 => throwIf (s2 ≠ [])
      (badArchive "executable marker has non-empty value" []) >>= fun _ =>
      call (.isExecutable path) >>= fun _ => getString narMaxTag) _ _ tag :=
    (reads_getString (s := []) (Nat.le_refl 0) (by decide)).bind ((reads_throwIf (by simp) _).bind
      ((reads_call _).bind (reads_getString htag (by decide))))
  simpa using hread

theorem reads_parseExecutable_plain (path : CanonPath) :
    Reads (parseExecutable path (str "contents")) [] [] (str "contents") := by
  unfold parseExecutable
  rw [if_neg (by decide)]
  exact Reads.pure _

theorem accepts_parseExecutable (path : CanonPath) (tag : Bytes) :
    Accepts (parseExecutable path tag) fun bs out next =>
      (tag = str "executable" ∧ bs = encodeString [] ++ encodeString next ∧
        out = [.isExecutable path]) ∨
      (tag ≠ str "executable" ∧ bs = [] ∧ out = [] ∧ next = tag) := by
  unfold parseExecutable
  by_cases h : tag = str "executable"
  · rw [if_pos h]
    refine (Accepts.bind (accepts_getString 0) fun _ => Accepts.bind (accepts_throwIf _ _) fun _ =>
      Accepts.bind (accepts_call _) fun _ => accepts_getString narMaxTag).mono ?_
    rintro bs out next ⟨_, _, s2, _, _, rfl, rfl, ⟨rfl, rfl, hs2⟩,
      _, _, _, _, _, rfl, rfl, ⟨rfl, rfl, -⟩,
      _, _, _, _, _, rfl, rfl, ⟨rfl, rfl⟩, rfl, rfl, -⟩
    have hs2nil : s2 = [] := List.eq_nil_of_length_eq_zero (Nat.le_zero.mp hs2)
    exact Or.inl ⟨h, by simp [hs2nil], by simp⟩
  · rw [if_neg h]
    exact (Accepts.pure tag).mono fun bs out next ⟨hbs, hout, hnext⟩ =>
      Or.inr ⟨h, hbs, hout, hnext⟩

/-- A regular file as it is framed: `block` is its contents with their size and padding. -/
def frameRegular (executable : Bool) (block : Bytes) : Bytes :=
  (if executable then encodeString (str "executable") ++ encodeString [] else []) ++
    (encodeString (str "contents") ++ block ++ encodeString (str ")"))

theorem reads_parseRegular (path : CanonPath) (executable : Bool) {contents block : Bytes}
    (h : mode.Block contents block) :
    Reads (parseRegular mode path) (frameRegular executable block)
      ((Tree.regular executable contents).calls mode.cut path) () := by
  have hbody : Reads (do
      parseContents mode path
      expectTag (str ")")
      call (.closeRegularFile path)) _ _ () :=
    (reads_parseContents path h).bind ((reads_expectTag (by decide)).bind (reads_call _))
  cases executable with
  | false =>
      have hread : Reads (parseRegular mode path) _ _ () :=
        (reads_call _).bind ((reads_getString (s := str "contents") (by decide) (by decide)).bind
          ((reads_parseExecutable_plain path).bind ((reads_throwIf (by simp) _).bind hbody)))
      simpa [Tree.calls, frameRegular] using hread
  | true =>
      have hread : Reads (parseRegular mode path) _ _ () :=
        (reads_call _).bind ((reads_getString (s := str "executable") (by decide) (by decide)).bind
          ((reads_parseExecutable_marked path (by decide : (str "contents").length ≤ narMaxTag)).bind
            ((reads_throwIf (by simp) _).bind hbody)))
      simpa [Tree.calls, frameRegular] using hread

theorem accepts_parseRegular (path : CanonPath) :
    Accepts (parseRegular mode path) fun bs out _ =>
      ∃ executable contents block, mode.Block contents block ∧ bs = frameRegular executable block ∧
        out = (Tree.regular executable contents).calls mode.cut path := by
  refine (accepts_call _).andThen ?_
  rintro _ _ ⟨⟩ ⟨rfl, rfl⟩
  refine (accepts_getString _).andThen ?_
  rintro _ _ tag ⟨rfl, rfl, -⟩
  refine (accepts_parseExecutable path tag).andThen fun marker out₁ next hmarker => ?_
  refine Accepts.check fun hnext => ?_
  simp only [ne_eq, not_not] at hnext
  subst hnext
  refine (accepts_parseContents path).andThen ?_
  rintro block _ ⟨⟩ ⟨contents, hblock, rfl⟩
  refine Accepts.tag ((accepts_call _).mono ?_)
  rintro _ _ ⟨⟩ ⟨rfl, rfl⟩
  rcases hmarker with ⟨rfl, rfl, rfl⟩ | ⟨-, rfl, rfl, rfl⟩
  · exact ⟨true, contents, block, hblock, by simp [frameRegular], by simp [Tree.calls]⟩
  · exact ⟨false, contents, block, hblock, by simp [frameRegular], by simp [Tree.calls]⟩

theorem reads_parseSymlink (path : CanonPath) {target : Bytes} (h : ValidTarget target) :
    Reads (parseSymlink path)
      (encodeString (str "target") ++ encodeString target ++ encodeString (str ")"))
      [.createSymlink path target] () := by
  have hread : Reads (parseSymlink path) _ _ () :=
    (reads_expectTag (by decide)).bind ((reads_getString h.bounded (by decide)).bind
      ((reads_throwIf (by simp [h.nonempty, h.noNul]) _).bind
        ((reads_call _).bind (reads_expectTag (by decide)))))
  simpa using hread

theorem accepts_parseSymlink (path : CanonPath) :
    Accepts (parseSymlink path) fun bs out _ => ∃ target, ValidTarget target ∧
      bs = encodeString (str "target") ++ encodeString target ++ encodeString (str ")") ∧
      out = [.createSymlink path target] := by
  refine (Accepts.bind (accepts_expectTag _) fun _ => Accepts.bind (accepts_getString _) fun _ =>
    Accepts.bind (accepts_throwIf _ _) fun _ => Accepts.bind (accepts_call _) fun _ =>
    accepts_expectTag _).mono ?_
  rintro bs out _ ⟨_, _, _, _, _, rfl, rfl, ⟨rfl, rfl⟩,
    _, _, target, _, _, rfl, rfl, ⟨rfl, rfl, hbound⟩,
    _, _, _, _, _, rfl, rfl, ⟨rfl, rfl, hvalid⟩,
    _, _, _, _, _, rfl, rfl, ⟨rfl, rfl⟩, rfl, rfl⟩
  rw [not_or] at hvalid
  exact ⟨target, ⟨hvalid.1, hbound, hvalid.2⟩, by simp, by simp⟩

/-! ## Directories -/

/-- The entries of a directory as they are framed, each with the framing of its node, and
the closing parenthesis. -/
def frameEntries : List (Name × Bytes) → Bytes
  | [] => encodeString (str ")")
  | (name, node) :: rest =>
      encodeString (str "entry") ++ encodeString (str "(") ++ encodeString (str "name") ++
        encodeString name ++ encodeString (str "node") ++ node ++ encodeString (str ")") ++
        frameEntries rest

theorem length_lt_frameEntries (items : List (Name × Bytes)) :
    items.length < (frameEntries items).length := by
  induction items with
  | nil => simp [frameEntries, encodeString]
  | cons e rest ih =>
      rcases e with ⟨name, node⟩
      simp only [frameEntries, encodeString, List.length_append, List.length_cons,
        littleEndian_length] at ih ⊢
      omega

/-- An entry as the parser finds it: its name, the tree, and the framing of the tree. -/
structure Item where
  name : Name
  tree : Tree
  node : Bytes

def Item.entry (e : Item) : Name × Tree := (e.name, e.tree)

def Item.framed (e : Item) : Name × Bytes := (e.name, e.node)

/-- The loop reads the entries of a directory in the order in which they are framed, given
that `child` reads each of them. -/
theorem reads_parseEntries {child : Name → Parser Unit} {cut : Bytes → List Bytes}
    (path : CanonPath) (items : List Item) (hnames : ∀ e ∈ items, ValidName e.name)
    (hchild : ∀ e ∈ items, Reads (child e.name) e.node (e.tree.calls cut (path ++ [e.name])) ())
    (prevName : Name) (hsorted : (prevName :: items.map Item.name).Pairwise (· < ·))
    (rounds : Nat) (hrounds : items.length < rounds) :
    Reads (parseEntries child rounds prevName) (frameEntries (items.map Item.framed))
      (Tree.callsEntries cut (items.map Item.entry) path) () := by
  induction items generalizing prevName rounds with
  | nil =>
      obtain ⟨rounds, rfl⟩ := Nat.exists_eq_succ_of_ne_zero (by omega : rounds ≠ 0)
      have hread : Reads (parseEntries child (rounds + 1) prevName) _ _ () :=
        (reads_getString (s := str ")") (by decide) (by decide)).bind
          (by rw [if_pos rfl]; exact Reads.pure ())
      simpa [frameEntries, Tree.callsEntries] using hread
  | cons e rest ih =>
      obtain ⟨rounds, rfl⟩ := Nat.exists_eq_succ_of_ne_zero (by omega : rounds ≠ 0)
      rw [List.map_cons, List.pairwise_cons] at hsorted
      have hvalid : ValidName e.name := hnames e (by simp)
      have hlt : ¬ e.name ≤ prevName := Name.not_le.mpr (hsorted.1 e.name (by simp))
      have hrest := ih (fun e he => hnames e (List.mem_cons_of_mem _ he))
        (fun e he => hchild e (List.mem_cons_of_mem _ he)) e.name hsorted.2 rounds
        (by simpa using hrounds)
      have hread : Reads (parseEntries child (rounds + 1) prevName) _ _ () :=
        (reads_getString (s := str "entry") (by decide) (by decide)).bind (by
          rw [if_neg (by decide)]
          exact (reads_throwIf (by simp) _).bind ((reads_expectTag (by decide)).bind
            ((reads_expectTag (by decide)).bind
              ((reads_getString hvalid.bounded (by decide)).bind
                ((reads_throwIf (invalidEntryName_eq_false hvalid) _).bind
                  ((reads_throwIf hlt _).bind ((reads_expectTag (by decide)).bind
                    ((hchild e (by simp)).bind
                      ((reads_expectTag (by decide)).bind hrest)))))))))
      simpa [frameEntries, Tree.callsEntries, Item.framed, Item.entry] using hread

/-- The loop accepts only the framings of strictly ascending entries above
`prevName`. -/
theorem accepts_parseEntries {child : Name → Parser Unit} {cut : Bytes → List Bytes}
    {P : Tree → Bytes → Prop} (path : CanonPath)
    (hchild : ∀ name, Accepts (child name) fun bs out _ =>
      ∃ t : Tree, P t bs ∧ out = t.calls cut (path ++ [name]))
    (rounds : Nat) (prevName : Name) :
    Accepts (parseEntries child rounds prevName) fun bs out _ =>
      ∃ items : List Item, (∀ e ∈ items, ValidName e.name) ∧
        (prevName :: items.map Item.name).Pairwise (· < ·) ∧ (∀ e ∈ items, P e.tree e.node) ∧
        bs = frameEntries (items.map Item.framed) ∧
        out = Tree.callsEntries cut (items.map Item.entry) path := by
  induction rounds generalizing prevName with
  | zero => exact Accepts.throw _ _
  | succ rounds ih =>
      refine (accepts_getString _).andThen ?_
      rintro _ _ tag ⟨rfl, rfl, -⟩
      by_cases htag : tag = str ")"
      · rw [if_pos htag]
        refine (Accepts.pure ()).mono ?_
        rintro _ _ ⟨⟩ ⟨rfl, rfl, -⟩
        exact ⟨[], by simp, by simp, by simp, by simp [frameEntries, htag],
          by simp [Tree.callsEntries]⟩
      · rw [if_neg htag]
        refine Accepts.check fun hentry => Accepts.tag (Accepts.tag ?_)
        simp only [ne_eq, not_not] at hentry
        refine (accepts_getString _).andThen ?_
        rintro _ _ name ⟨rfl, rfl, hbound⟩
        refine Accepts.check fun hname => Accepts.check fun hlt => Accepts.tag ?_
        refine (hchild name).andThen ?_
        rintro node _ ⟨⟩ ⟨t, hP, rfl⟩
        refine Accepts.tag ((ih name).mono ?_)
        rintro _ _ ⟨⟩ ⟨items, hnames, hsorted, hchildren, rfl, rfl⟩
        have habove : prevName < name := Name.not_le.mp hlt
        refine ⟨⟨name, t, node⟩ :: items, ?_, ?_, ?_,
          by simp [frameEntries, Item.framed, hentry],
          by simp [Tree.callsEntries, Item.entry]⟩
        · simpa [validName_of_parsed hbound hname] using hnames
        · rw [List.map_cons, List.pairwise_cons]
          refine ⟨fun other hother => ?_, hsorted⟩
          rcases List.mem_cons.mp hother with rfl | hmem
          · exact habove
          · exact Name.lt_trans habove ((List.pairwise_cons.mp hsorted).1 other hmem)
        · simpa [hP] using hchildren

theorem reads_parseDirectory {child : Name → Parser Unit} {cut : Bytes → List Bytes}
    (path : CanonPath) (items : List Item) (hnames : ∀ e ∈ items, ValidName e.name)
    (hchild : ∀ e ∈ items, Reads (child e.name) e.node (e.tree.calls cut (path ++ [e.name])) ())
    (hsorted : (items.map Item.name).Pairwise (· < ·)) :
    Reads (parseDirectory child path) (frameEntries (items.map Item.framed))
      ((Tree.directory (items.map Item.entry)).calls cut path) () := by
  have hbelow : (([] : Name) :: items.map Item.name).Pairwise (· < ·) := by
    refine List.pairwise_cons.mpr ⟨fun name hname => ?_, hsorted⟩
    obtain ⟨e, he, rfl⟩ := List.mem_map.mp hname
    exact Name.nil_lt (hnames e he).nonempty
  have hloop : Reads (fun src => parseEntries child src.length [] src : Parser Unit)
      (frameEntries (items.map Item.framed))
      (Tree.callsEntries cut (items.map Item.entry) path) () := by
    intro rest
    refine reads_parseEntries path items hnames hchild [] hbelow _ ?_ rest
    have hlength := length_lt_frameEntries (items.map Item.framed)
    rw [List.length_map] at hlength
    rw [List.length_append]
    omega
  have hread : Reads (parseDirectory child path) _ _ () :=
    (reads_call _).bind (hloop.bind (reads_call _))
  simpa [Tree.calls] using hread

theorem accepts_parseDirectory {child : Name → Parser Unit} {cut : Bytes → List Bytes}
    {P : Tree → Bytes → Prop} (path : CanonPath)
    (hchild : ∀ name, Accepts (child name) fun bs out _ =>
      ∃ t : Tree, P t bs ∧ out = t.calls cut (path ++ [name])) :
    Accepts (parseDirectory child path) fun bs out _ =>
      ∃ items : List Item, (∀ e ∈ items, ValidName e.name) ∧
        (items.map Item.name).Pairwise (· < ·) ∧ (∀ e ∈ items, P e.tree e.node) ∧
        bs = frameEntries (items.map Item.framed) ∧
        out = (Tree.directory (items.map Item.entry)).calls cut path := by
  have hloop : Accepts (fun src => parseEntries child src.length [] src : Parser Unit) _ :=
    fun src out a rest h => accepts_parseEntries path hchild src.length [] src out a rest h
  refine (Accepts.bind (accepts_call _) fun _ => Accepts.bind hloop fun _ =>
    accepts_call _).mono ?_
  rintro bs out _ ⟨_, _, _, _, _, rfl, rfl, ⟨rfl, rfl⟩, _, _, _, _, _, rfl, rfl,
    ⟨items, hnames, hsorted, hchildren, rfl, rfl⟩, rfl, rfl⟩
  exact ⟨items, hnames, (List.pairwise_cons.mp hsorted).2, hchildren, by simp,
    by simp [Tree.calls]⟩

/-! ## Whole archives -/

/-- The byte strings that frame a representable tree, when the contents of its files are
framed as `block` says. -/
inductive Framed (block : Bytes → Bytes → Prop) : Tree → Bytes → Prop
  | regular (executable : Bool) {contents bs : Bytes} (h : block contents bs) :
      Framed block (.regular executable contents)
        (encodeString (str "(") ++ encodeString (str "type") ++ encodeString (str "regular") ++
          frameRegular executable bs)
  | symlink {target : Bytes} (htarget : ValidTarget target) :
      Framed block (.symlink target) (Tree.symlink target).encodeNode
  | directory {items : List Item} (hnames : ∀ e ∈ items, ValidName e.name)
      (hsorted : (items.map Item.name).Pairwise (· < ·))
      (hchildren : ∀ e ∈ items, Framed block e.tree e.node) :
      Framed block (.directory (items.map Item.entry))
        (encodeString (str "(") ++ encodeString (str "type") ++ encodeString (str "directory") ++
          frameEntries (items.map Item.framed))

/-- A framing within the depth limit is read, with exactly the calls that build the tree. -/
theorem reads_parse {t : Tree} {bs : Bytes} (ht : Framed mode.Block t bs) (levels : Nat)
    (hheight : t.height ≤ levels) (path : CanonPath) :
    Reads (parse mode levels path) bs (t.calls mode.cut path) () := by
  induction ht generalizing levels path with
  | @regular executable contents bs hblock =>
      obtain ⟨levels, rfl⟩ : ∃ n, levels = n + 1 :=
        Nat.exists_eq_succ_of_ne_zero (by simp only [Tree.height] at hheight; omega)
      have hread : Reads (parse mode (levels + 1) path) _ _ () :=
        (reads_expectTag (by decide)).bind ((reads_expectTag (by decide)).bind
          ((reads_getString (s := str "regular") (by decide) (by decide)).bind (by
            rw [if_pos rfl]
            exact reads_parseRegular path executable hblock)))
      simpa using hread
  | symlink htarget =>
      obtain ⟨levels, rfl⟩ : ∃ n, levels = n + 1 :=
        Nat.exists_eq_succ_of_ne_zero (by simp only [Tree.height] at hheight; omega)
      have hread : Reads (parse mode (levels + 1) path) _ _ () :=
        (reads_expectTag (by decide)).bind ((reads_expectTag (by decide)).bind
          ((reads_getString (s := str "symlink") (by decide) (by decide)).bind (by
            rw [if_neg (by decide), if_neg (by decide), if_pos rfl]
            exact reads_parseSymlink path htarget)))
      simpa [Tree.encodeNode, Tree.calls] using hread
  | @directory items hnames hsorted hchildren ih =>
      obtain ⟨levels, rfl⟩ : ∃ n, levels = n + 1 :=
        Nat.exists_eq_succ_of_ne_zero (by simp only [Tree.height] at hheight; omega)
      simp only [Tree.height, Nat.add_le_add_iff_right] at hheight
      have hbelow : ∀ e ∈ items, e.tree.height ≤ levels := fun e he =>
        (Tree.height_le_heightEntries (List.mem_map_of_mem he : e.entry ∈ _)).trans hheight
      have hread : Reads (parse mode (levels + 1) path) _ _ () :=
        (reads_expectTag (by decide)).bind ((reads_expectTag (by decide)).bind
          ((reads_getString (s := str "directory") (by decide) (by decide)).bind (by
            rw [if_neg (by decide), if_pos rfl]
            exact reads_parseDirectory path items hnames
              (fun e he => ih e he levels (hbelow e he) (path ++ [e.name])) hsorted)))
      simpa using hread

/-- The parser accepts nothing but framings of trees. -/
theorem accepts_parse (levels : Nat) (path : CanonPath) :
    Accepts (parse mode levels path) fun bs out _ => ∃ t : Tree,
      (Framed mode.Block t bs ∧ t.height ≤ levels) ∧ out = t.calls mode.cut path := by
  induction levels generalizing path with
  | zero => exact Accepts.throw _ _
  | succ levels ih =>
      refine Accepts.tag (Accepts.tag ((accepts_getString _).andThen ?_))
      rintro _ _ type ⟨rfl, rfl, -⟩
      split
      · rename_i htype
        refine (accepts_parseRegular path).mono ?_
        rintro bs out _ ⟨executable, contents, block, hblock, rfl, rfl⟩
        refine ⟨.regular executable contents, ⟨?_, by simp [Tree.height]⟩, rfl⟩
        simpa [htype] using Framed.regular executable hblock
      split
      · rename_i htype
        refine (accepts_parseDirectory path fun name => ih (path ++ [name])).mono ?_
        rintro bs out _ ⟨items, hnames, hsorted, hchildren, rfl, rfl⟩
        refine ⟨.directory (items.map Item.entry), ⟨?_, ?_⟩, rfl⟩
        · simpa [htype] using Framed.directory hnames hsorted fun e he => (hchildren e he).1
        · rw [Tree.height]
          refine Nat.succ_le_succ (Tree.heightEntries_le fun e he => ?_)
          obtain ⟨item, hitem, rfl⟩ := List.mem_map.mp he
          exact (hchildren item hitem).2
      split
      · rename_i htype
        refine (accepts_parseSymlink path).mono ?_
        rintro bs out _ ⟨target, htarget, rfl, rfl⟩
        refine ⟨.symlink target, ⟨?_, by simp [Tree.height]⟩, by simp [Tree.calls]⟩
        simpa [htype, Tree.encodeNode] using Framed.symlink htarget
      · exact Accepts.throw _ _

theorem reads_readVersion : Reads readVersion (encodeString narVersionMagic1) [] narVersionMagic1 := by
  intro rest
  have hread := reads_readString (ω := SinkCall) (s := narVersionMagic1)
    (Nat.le_refl narVersionMagic1.length) (by decide) rest
  simp [readVersion, hread]

theorem accepts_readVersion :
    Accepts readVersion fun bs out version =>
      version = [] ∨ (out = [] ∧ bs = encodeString version) := by
  intro src out version rest h
  unfold readVersion at h
  split at h
  · split at h
    · simp only [Emit.mk.injEq, Except.ok.injEq, Prod.mk.injEq] at h
      obtain ⟨-, rfl, rfl⟩ := h
      exact ⟨[], rfl, Or.inl rfl⟩
    · simp at h
  · obtain ⟨bs, hsrc, hout, hbs, -⟩ := accepts_readString _ src out version rest h
    exact ⟨bs, hsrc, Or.inr ⟨hout, hbs⟩⟩

/-- `parseDump` reads the version string and a framing. -/
theorem reads_parseDump_framed {t : Tree} {bs : Bytes} (ht : Framed mode.Block t bs)
    (hheight : t.height ≤ narMaxDepth) :
    Reads (parseDump mode) (encodeString narVersionMagic1 ++ bs) (t.calls mode.cut []) () := by
  have hread : Reads (parseDump mode) _ _ () :=
    reads_readVersion.bind ((reads_throwIf (by simp) _).bind
      (reads_parse ht narMaxDepth hheight []))
  simpa using hread

theorem accepts_parseDump_framed :
    Accepts (parseDump mode) fun bs out _ => ∃ (t : Tree) (node : Bytes),
      Framed mode.Block t node ∧ t.height ≤ narMaxDepth ∧
        bs = encodeString narVersionMagic1 ++ node ∧ out = t.calls mode.cut [] := by
  refine (Accepts.bind accepts_readVersion fun _ => Accepts.bind (accepts_throwIf _ _) fun _ =>
    accepts_parse narMaxDepth []).mono ?_
  rintro bs out _ ⟨_, _, version, _, _, rfl, rfl, hversion,
    _, _, _, node, _, rfl, rfl, ⟨rfl, rfl, hmagic⟩, t, ⟨hframed, hheight⟩, rfl⟩
  simp only [ne_eq, not_not] at hmagic
  subst hmagic
  rcases hversion with hempty | ⟨rfl, rfl⟩
  · exact absurd hempty (by decide)
  · exact ⟨t, node, hframed, hheight, by simp, by simp⟩

/-! ## Archives read with their contents -/

theorem encodeEntries_eq (entries : List (Name × Tree)) :
    Tree.encodeEntries entries = frameEntries (entries.map fun e => (e.1, e.2.encodeNode)) := by
  induction entries with
  | nil => rfl
  | cons e rest ih => simp [Tree.encodeEntries, frameEntries, ih]

/-- The framing without freedom in the padding. -/
def exactBlock (contents bs : Bytes) : Prop :=
  contents.length < 2 ^ 64 ∧ bs = encodeString contents

theorem block_of_not_skip (hskip : mode.skipContents = false) : mode.Block = exactBlock := by
  ext contents bs
  simp [ParseMode.Block, exactBlock, hskip]

/-- Then a tree has one framing, its archive. -/
theorem framed_iff {t : Tree} {bs : Bytes} :
    Framed exactBlock t bs ↔ t.Representable ∧ bs = t.encodeNode := by
  constructor
  · intro h
    induction h with
    | regular executable hblock =>
        obtain ⟨hsize, rfl⟩ := hblock
        exact ⟨.regular executable hsize, by simp [Tree.encodeNode, frameRegular]⟩
    | symlink htarget => exact ⟨.symlink htarget, rfl⟩
    | @directory items hnames hsorted hchildren ih =>
        refine ⟨.directory ?_ ?_ ?_, ?_⟩
        · simpa [Item.entry] using hnames
        · simpa [Item.entry, Function.comp_def] using hsorted
        · simpa [Item.entry] using fun e he => (ih e he).1
        · have hitems : items.map Item.framed =
              (items.map Item.entry).map fun e => (e.1, e.2.encodeNode) := by
            rw [List.map_map]
            exact List.map_congr_left fun e he => by
              simp [Item.framed, Item.entry, (ih e he).2]
          rw [Tree.encodeNode, encodeEntries_eq, hitems]
  · rintro ⟨ht, rfl⟩
    induction ht with
    | @regular executable contents hsize =>
        have hframed : Framed exactBlock (.regular executable contents) _ :=
          .regular executable ⟨hsize, rfl⟩
        simpa [Tree.encodeNode, frameRegular] using hframed
    | symlink htarget => exact .symlink htarget
    | @directory entries hnames hsorted hchildren ih =>
        let items : List Item := entries.map fun e => ⟨e.1, e.2, e.2.encodeNode⟩
        have hentries : items.map Item.entry = entries := by
          simp [items, Item.entry, Function.comp_def]
        have hall : ∀ P : Item → Prop, (∀ e ∈ entries, P ⟨e.1, e.2, e.2.encodeNode⟩) →
            ∀ e ∈ items, P e := fun P h item hitem => by
          obtain ⟨e, he, rfl⟩ := List.mem_map.mp hitem
          exact h e he
        have hframed : Framed exactBlock (.directory (items.map Item.entry)) _ :=
          .directory (hall _ hnames) (by simpa [items, Function.comp_def] using hsorted)
            (hall _ ih)
        rw [hentries] at hframed
        rw [Tree.encodeNode, encodeEntries_eq]
        simpa [items, Item.framed, Function.comp_def] using hframed

theorem cut_of_not_skip (hskip : mode.skipContents = false) : mode.cut = mode.reads.cut := by
  funext contents
  simp [ParseMode.cut, hskip]

theorem reads_parseDump (hskip : mode.skipContents = false) {t : Tree} (ht : t.Representable)
    (hheight : t.height ≤ narMaxDepth) :
    Reads (parseDump mode) t.nar (t.calls mode.reads.cut []) () := by
  rw [← cut_of_not_skip hskip]
  refine reads_parseDump_framed ?_ hheight
  rw [block_of_not_skip hskip]
  exact framed_iff.mpr ⟨ht, rfl⟩

theorem accepts_parseDump (hskip : mode.skipContents = false) :
    Accepts (parseDump mode) fun bs out _ => ∃ t : Tree, t.Representable ∧
      t.height ≤ narMaxDepth ∧ bs = t.nar ∧ out = t.calls mode.reads.cut [] := by
  refine accepts_parseDump_framed.mono ?_
  rintro bs out _ ⟨t, node, hframed, hheight, rfl, rfl⟩
  rw [block_of_not_skip hskip] at hframed
  obtain ⟨hrepr, rfl⟩ := framed_iff.mp hframed
  exact ⟨t, hrepr, hheight, rfl, by rw [cut_of_not_skip hskip]⟩

end Parse

end Util
end Archinix
