import Archinix.Util.ArchiveCanonical
import Archinix.Util.MemorySinkRun

/-!
# Archives and trees determine each other

What a dumper writes depends only on the tree its accessor shows
(`Shows.dumpPath`); the memory accessor shows the tree it holds.  With the exact
description of the parser this makes dumping and parsing inverse to each other,
in both directions.
-/

namespace Archinix
namespace Util

open Foundation

/-! ## Dumping what an accessor shows -/

namespace SourceAccessor

/-- The accessor answers every query at and below `path` as the tree has it.  A
listing may carry sockets and fifos besides; the dumper leaves them out. -/
inductive Shows (accessor : SourceAccessor) : CanonPath → Tree → Prop
  | regular {path : CanonPath} {executable : Bool} {contents : Bytes}
      (hlstat : accessor.maybeLstat path = .ok (some ⟨.tRegular, executable⟩))
      (hread : accessor.readFile path = .ok (contents.length, Emit.tellAll contents)) :
      Shows accessor path (.regular executable contents)
  | symlink {path : CanonPath} {target : Bytes} {executable : Bool}
      (hlstat : accessor.maybeLstat path = .ok (some ⟨.tSymlink, executable⟩))
      (hread : accessor.readLink path = .ok target) :
      Shows accessor path (.symlink target)
  | directory {path : CanonPath} {entries : List (Name × Tree)} {executable : Bool}
      {listing : List (Name × Option FileType)}
      (hlstat : accessor.maybeLstat path = .ok (some ⟨.tDirectory, executable⟩))
      (hread : accessor.readDirectory path = .ok listing)
      (hlisting : (listing.filter fun e => e.2 ≠ some .tFifo ∧ e.2 ≠ some .tSocket).map (·.1) =
        entries.map (·.1))
      (hchildren : ∀ e ∈ entries, Shows accessor (path ++ [e.1]) e.2) :
      Shows accessor path (.directory entries)

variable {accessor : SourceAccessor}

theorem lstat_eq {path : CanonPath} {st : Stat}
    (h : accessor.maybeLstat path = .ok (some st)) : accessor.lstat path = ⟨[], .ok st⟩ := by
  simp [lstat, query, h]

/-- The loop over a listing writes the entries of the tree one after the other. -/
theorem forM_entries {listing : List (Name × Option FileType)} {entries : List (Name × Tree)}
    (child : Name → Writer Unit) (hnames : listing.map (·.1) = entries.map (·.1))
    (hchild : ∀ e ∈ entries, child e.1 = ⟨e.2.encodeNode, .ok ()⟩) :
    (listing.forM fun (name, _) => do
        writeString (str "entry")
        writeString (str "(")
        writeString (str "name")
        writeString name
        writeString (str "node")
        child name
        writeString (str ")")) >>= (fun _ => writeString (str ")")) =
      (⟨Tree.encodeEntries entries, .ok ()⟩ : Writer Unit) := by
  induction entries generalizing listing with
  | nil =>
      obtain rfl : listing = [] := by simpa using hnames
      simp [List.forM_nil, Tree.encodeEntries]
  | cons e rest ih =>
      rcases e with ⟨name, t⟩
      rcases listing with - | ⟨⟨listed, type⟩, listing⟩
      · simp at hnames
      · simp only [List.map_cons, List.cons.injEq] at hnames
        obtain ⟨rfl, hnames⟩ := hnames
        have hrest := ih hnames fun e he => hchild e (List.mem_cons_of_mem _ he)
        have hthis : child listed = ⟨t.encodeNode, .ok ()⟩ := hchild (listed, t) (by simp)
        simp only [List.forM_eq_forM, List.forM_cons, bind_assoc] at hrest ⊢
        rw [hrest, hthis]
        simp [Tree.encodeEntries]

/-- The dump of a shown tree is its archive. -/
theorem Shows.dump {path : CanonPath} {t : Tree} (h : accessor.Shows path t) (levels : Nat)
    (relPath : CanonPath) (hheight : t.height ≤ levels) :
    accessor.dump levels path relPath = ⟨t.encodeNode, .ok ()⟩ := by
  induction h generalizing levels relPath with
  | @regular path executable contents hlstat hread =>
      obtain ⟨levels, rfl⟩ : ∃ n, levels = n + 1 :=
        Nat.exists_eq_succ_of_ne_zero (by simp only [Tree.height] at hheight; omega)
      cases executable <;>
        simp [SourceAccessor.dump, lstat_eq hlstat, dumpContents, query, hread, Tree.encodeNode,
          encodeString, Emit.tellAll, show str "" = [] from rfl]
  | symlink hlstat hread =>
      obtain ⟨levels, rfl⟩ : ∃ n, levels = n + 1 :=
        Nat.exists_eq_succ_of_ne_zero (by simp only [Tree.height] at hheight; omega)
      simp [SourceAccessor.dump, lstat_eq hlstat, query, hread, Tree.encodeNode]
  | @directory path entries executable listing hlstat hread hlisting hchildren ih =>
      obtain ⟨levels, rfl⟩ : ∃ n, levels = n + 1 :=
        Nat.exists_eq_succ_of_ne_zero (by simp only [Tree.height] at hheight; omega)
      simp only [Tree.height, Nat.add_le_add_iff_right] at hheight
      have hloop := forM_entries
        (fun name => accessor.dump levels (path ++ [name]) (accessor.subdirRelPath relPath ++ [name]))
        hlisting fun e he => ih e he levels _
        ((Tree.height_le_heightEntries he).trans hheight)
      simp only [SourceAccessor.dump, lstat_eq hlstat, query, hread, Emit.bind_ok,
        Emit.prepend_nil]
      rw [hloop]
      simp [Tree.encodeNode]

theorem Shows.dumpPath {path : CanonPath} {t : Tree} (h : accessor.Shows path t)
    (hheight : t.height ≤ narMaxDepth) : accessor.dumpPath path = ⟨t.nar, .ok ()⟩ := by
  simp [SourceAccessor.dumpPath, h.dump narMaxDepth path hheight, Tree.nar]

end SourceAccessor

/-! ## The memory accessor shows its tree -/

namespace Tree

theorem get?_append (t : Tree) (path more : CanonPath) :
    t.get? (path ++ more) = (t.get? path).bind (·.get? more) := by
  induction path generalizing t with
  | nil => cases t <;> simp [get?]
  | cons name rest ih =>
      cases t with
      | directory entries =>
          simp only [List.cons_append, get?]
          split
          · exact ih _
          · rfl
      | regular | symlink => simp [get?]

/-- Distinct names are found. -/
theorem find?_of_mem {entries : List (Name × Tree)}
    (hsorted : (entries.map (·.1)).Pairwise (· < ·)) {e : Name × Tree} (he : e ∈ entries) :
    entries.find? (·.1 = e.1) = some e := by
  induction entries with
  | nil => cases he
  | cons first rest ih =>
      rw [List.map_cons, List.pairwise_cons] at hsorted
      rcases List.mem_cons.mp he with rfl | hrest
      · simp
      · have hlt := hsorted.1 e.1 (List.mem_map_of_mem hrest)
        have hne : first.1 ≠ e.1 := by
          intro heq
          exact List.lt_irrefl _ (heq ▸ hlt)
        simp [hne, ih hsorted.2 hrest]

theorem openExisting_of_get? {t file : Tree} {path : CanonPath}
    (h : t.get? path = some file) : t.openExisting path = .ok (some file) := by
  induction path generalizing t with
  | nil => cases t <;> simpa [get?, openExisting] using h
  | cons name rest ih =>
      cases t with
      | directory entries =>
          simp only [get?, openExisting] at h ⊢
          cases hfind : entries.find? (·.1 = name) with
          | none => simp [hfind] at h
          | some e => exact ih (by simpa [hfind] using h)
      | regular | symlink => simp [get?] at h

end Tree

section Memory

variable {displayPrefix : Bytes}

theorem openFound_of_get? {t file : Tree} {path : CanonPath} (h : t.get? path = some file) :
    MemorySourceAccessor.openFound displayPrefix (some t) path = .ok file := by
  simp [MemorySourceAccessor.openFound, MemorySourceAccessor.openFile,
    Tree.openExisting_of_get? h, Except.mapError, bind, Except.bind]

/-- At every path the memory accessor shows the object of its tree. -/
theorem memorySourceAccessor_shows {t file : Tree} (hfile : file.Representable)
    {path : CanonPath} (h : t.get? path = some file) :
    (memorySourceAccessor displayPrefix (some t)).Shows path file := by
  have hlstat : (memorySourceAccessor displayPrefix (some t)).maybeLstat path =
      .ok (some file.lstat) := by
    simp [memorySourceAccessor, MemorySourceAccessor.openFile, Tree.openExisting_of_get? h,
      Except.mapError, Except.map]
  induction hfile generalizing path with
  | regular executable hsize =>
      refine .regular hlstat ?_
      simp [memorySourceAccessor, MemorySourceAccessor.readFile, openFound_of_get? h, bind,
        Except.bind]
  | symlink htarget =>
      refine .symlink hlstat ?_
      simp [memorySourceAccessor, MemorySourceAccessor.readLink, openFound_of_get? h, bind,
        Except.bind]
  | @directory entries hnames hsorted hchildren ih =>
      have hread : (memorySourceAccessor displayPrefix (some t)).readDirectory path =
          .ok (entries.map fun e => (e.1, some e.2.lstat.type)) := by
        simp [memorySourceAccessor, MemorySourceAccessor.readDirectory, openFound_of_get? h, bind,
          Except.bind]
      refine .directory hlstat hread ?_ fun e he => ?_
      · rw [List.filter_eq_self.mpr, List.map_map]
        · rfl
        · intro listed hlisted
          obtain ⟨e, -, rfl⟩ := List.mem_map.mp hlisted
          cases e.2 <;> simp [Tree.lstat]
      · have hget : t.get? (path ++ [e.1]) = some e.2 := by
          rw [Tree.get?_append, h]
          simp [Tree.get?, Tree.find?_of_mem hsorted he]
        refine ih e he hget ?_
        simp [memorySourceAccessor, MemorySourceAccessor.openFile, Tree.openExisting_of_get? hget,
          Except.mapError, Except.map]

end Memory

/-! ## Both directions -/

section RoundTrip

variable {displayPrefix : Bytes} {reads : ReadSizes}

variable (displayPrefix reads) in
/-- Parsing an archive rebuilds its tree and stops at its last byte. -/
theorem parseIntoMemory_nar {t : Tree} (ht : t.Representable) (hheight : t.height ≤ narMaxDepth)
    (rest : Bytes) :
    parseIntoMemory displayPrefix reads (t.nar ++ rest) = .ok (some t, rest) := by
  have hparse := reads_parseDump (show (⟨false, reads⟩ : ParseMode).skipContents = false from rfl)
    ht hheight rest
  have hrun := MemorySink.run_calls displayPrefix reads.flatten_cut ht
  simp [parseIntoMemory, hparse, hrun, bind, Except.bind]

/-- Whatever parses is the archive of the tree it builds. -/
theorem nar_of_parseIntoMemory {src rest : Bytes} {root : Option Tree}
    (h : parseIntoMemory displayPrefix reads src = .ok (root, rest)) :
    ∃ t : Tree, root = some t ∧ t.Representable ∧ t.height ≤ narMaxDepth ∧
      src = t.nar ++ rest := by
  obtain ⟨built, hrun, hresult⟩ := except_bind_eq_ok h
  obtain ⟨⟨⟨⟩, left⟩, hparsed, hroot⟩ := except_bind_eq_ok hresult
  simp only [Except.ok.injEq, Prod.mk.injEq] at hroot
  obtain ⟨rfl, rfl⟩ := hroot
  have haccept := accepts_parseDump (show (⟨false, reads⟩ : ParseMode).skipContents = false from rfl)
    src
    (parseDump ⟨false, reads⟩ src).emitted () left (by rw [← hparsed])
  obtain ⟨bs, hsrc, t, hrepr, hheight, rfl, hcalls⟩ := haccept
  have hbuild := MemorySink.run_calls displayPrefix reads.flatten_cut hrepr
  rw [hcalls, hbuild] at hrun
  cases hrun
  exact ⟨t, rfl, hrepr, hheight, hsrc⟩

theorem dumpPath_memory {t : Tree} (ht : t.Representable) (hheight : t.height ≤ narMaxDepth) :
    (memorySourceAccessor displayPrefix (some t)).dumpPath [] = ⟨t.nar, .ok ()⟩ :=
  (memorySourceAccessor_shows ht (by cases t <;> rfl)).dumpPath hheight

/-- Distinct trees have distinct archives. -/
theorem nar_injective {t u : Tree} (ht : t.Representable) (hu : u.Representable)
    (htheight : t.height ≤ narMaxDepth) (huheight : u.height ≤ narMaxDepth)
    (h : t.nar = u.nar) : t = u := by
  have hfirst := parseIntoMemory_nar [] .whole ht htheight []
  rw [h, parseIntoMemory_nar [] .whole hu huheight []] at hfirst
  simpa using hfirst.symm

end RoundTrip

/-- The archive format is canonical and invertible.  For every way the reads cut
a file's contents and every display prefix: dumping a representable tree within
the depth limit succeeds, and parsing what was dumped, whatever follows it,
rebuilds the tree and leaves exactly what follows; and whenever parsing a byte
string succeeds, dumping the tree it built writes exactly the prefix that was
consumed. -/
theorem parse_dump_inverse (displayPrefix : Bytes) (reads : ReadSizes) :
    (∀ t : Tree, t.Representable → t.height ≤ narMaxDepth →
      ∃ bs, (memorySourceAccessor displayPrefix (some t)).dumpPath [] = ⟨bs, .ok ()⟩ ∧
        ∀ rest, parseIntoMemory displayPrefix reads (bs ++ rest) = .ok (some t, rest)) ∧
    (∀ src root rest, parseIntoMemory displayPrefix reads src = .ok (root, rest) →
      ∃ consumed, src = consumed ++ rest ∧
        (memorySourceAccessor displayPrefix root).dumpPath [] = ⟨consumed, .ok ()⟩) := by
  constructor
  · intro t ht hheight
    exact ⟨t.nar, dumpPath_memory ht hheight, parseIntoMemory_nar _ _ ht hheight⟩
  · intro src root rest h
    obtain ⟨t, rfl, hrepr, hheight, hsrc⟩ := nar_of_parseIntoMemory h
    exact ⟨t.nar, hsrc, dumpPath_memory hrepr hheight⟩

/-- A directory with an executable and a symlink, followed by other bytes. -/
theorem parse_dump_inverse_example :
    ∃ bs, (memorySourceAccessor [] (some (.directory
        [(str "run", .regular true (str "x")), (str "to", .symlink (str "run"))]))).dumpPath [] =
          ⟨bs, .ok ()⟩ ∧
      parseIntoMemory [] .whole (bs ++ [7, 9]) = .ok (some (.directory
        [(str "run", .regular true (str "x")), (str "to", .symlink (str "run"))]), [7, 9]) := by
  obtain ⟨bs, hdump, hparse⟩ := (parse_dump_inverse [] .whole).1
    (.directory [(str "run", .regular true (str "x")), (str "to", .symlink (str "run"))])
    (.directory (by decide) (by decide) (by
      simp only [List.mem_cons, List.not_mem_nil, or_false, forall_eq_or_imp, forall_eq]
      exact ⟨.regular true (by decide), .symlink ⟨by decide, by decide, by decide⟩⟩))
    (by decide)
  exact ⟨bs, hdump, hparse [7, 9]⟩

end Util
end Archinix
