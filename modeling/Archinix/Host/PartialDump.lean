import Archinix.Host.DumpPath

/-!
# Dumps that fail

`dumpPath` writes as it goes.  What it has written when it throws is the beginning of an archive
(`dumpPath_cut`), and so never a whole one.
-/

namespace Archinix
namespace Host

open Foundation Util

/-- Some of the bytes, but not all. -/
def Cut (bs whole : Bytes) : Prop := ∃ rest, rest ≠ [] ∧ bs ++ rest = whole

theorem Cut.append_left {bs whole : Bytes} (h : Cut bs whole) (first : Bytes) :
    Cut (first ++ bs) (first ++ whole) := by
  obtain ⟨rest, hrest, rfl⟩ := h
  exact ⟨rest, hrest, List.append_assoc ..⟩

theorem Cut.append_right {bs whole : Bytes} (h : Cut bs whole) (last : Bytes) :
    Cut bs (whole ++ last) := by
  obtain ⟨rest, hrest, rfl⟩ := h
  exact ⟨rest ++ last, by simp [hrest], (List.append_assoc ..).symm⟩

theorem cut_nil {whole : Bytes} (h : whole ≠ []) : Cut [] whole := ⟨whole, h, rfl⟩

theorem encodeString_ne_nil (s : Bytes) : encodeString s ≠ [] := by
  intro h
  have hlength := congrArg List.length h
  simp [encodeString, littleEndian_length] at hlength

/-- What has been written of an entry before its node. -/
def entryHead (name : Name) : Bytes :=
  encodeString (str "entry") ++ encodeString (str "(") ++ encodeString (str "name") ++
    encodeString name ++ encodeString (str "node")

theorem writeEntry_eq (child : Name → Writer Unit) (name : Name) : writeEntry child name =
    (child name >>= fun _ => writeString (str ")")).prepend (entryHead name) := by
  simp only [writeEntry, writeString_eq, Emit.bind_ok, Emit.prepend_prepend, entryHead, List.append_assoc]

theorem encodeEntries_cons (name : Name) (t : Tree) (rest : List (Name × Tree)) :
    Tree.encodeEntries ((name, t) :: rest) =
      entryHead name ++ (t.encodeNode ++ (encodeString (str ")") ++ Tree.encodeEntries rest)) := by
  simp only [Tree.encodeEntries, entryHead, List.append_assoc]

/-- A loop over entries that fails has written some entries and a part of one. -/
theorem forM_writeEntry_cut {child : Name → Writer Unit} {P : Tree → Prop} {names : List Name}
    {bs : Bytes} {e : Error}
    (hok : ∀ name ∈ names, ∀ bs, child name = ⟨bs, .ok ()⟩ → ∃ t, P t ∧ bs = t.encodeNode)
    (hfail : ∀ name ∈ names, ∀ bs e, child name = ⟨bs, .error e⟩ → ∃ t, P t ∧ Cut bs t.encodeNode)
    (h : (names.forM (writeEntry child) >>= fun _ => writeString (str ")")) = ⟨bs, .error e⟩) :
    ∃ entries : List (Name × Tree), (entries.map (·.1)).Sublist names ∧ (∀ e ∈ entries, P e.2) ∧
      Cut bs (Tree.encodeEntries entries) := by
  induction names generalizing bs with
  | nil =>
      rw [List.forM_eq_forM, List.forM_nil, Emit.pure_def, Emit.bind_ok, Emit.prepend_nil,
        writeString_eq] at h
      cases h
  | cons name names ih =>
      rw [List.forM_eq_forM, List.forM_cons, bind_assoc, writeEntry_eq, Emit.bind_prepend,
        bind_assoc] at h
      rcases hchild : child name with ⟨node, e' | ⟨⟩⟩
      · rw [hchild, Emit.bind_error, Emit.prepend_mk, Emit.mk.injEq] at h
        obtain ⟨rfl, -⟩ := h
        obtain ⟨t, ht, hcut⟩ := hfail name List.mem_cons_self node e' hchild
        refine ⟨[(name, t)], by simp, by simpa using ht, ?_⟩
        rw [encodeEntries_cons]
        exact (hcut.append_right _).append_left _
      · obtain ⟨t, ht, rfl⟩ := hok name List.mem_cons_self node hchild
        rw [hchild, Emit.bind_ok, writeString_eq, Emit.bind_ok] at h
        rw [← writeString_eq] at h
        rcases hrest : (names.forM (writeEntry child) >>= fun _ => writeString (str ")")) with ⟨more, r⟩
        rw [← List.forM_eq_forM, hrest, Emit.prepend_mk, Emit.prepend_mk, Emit.prepend_mk,
          Emit.mk.injEq] at h
        obtain ⟨rfl, rfl⟩ := h
        obtain ⟨entries, hnames, hentries, hcut⟩ := ih
          (fun n hn => hok n (List.mem_cons_of_mem name hn))
          (fun n hn => hfail n (List.mem_cons_of_mem name hn)) hrest
        refine ⟨(name, t) :: entries, by simpa using hnames, ?_, ?_⟩
        · rintro e he
          rcases List.mem_cons.mp he with rfl | he
          · exact ht
          · exact hentries e he
        · rw [encodeEntries_cons]
          exact ((hcut.append_left _).append_left _).append_left _

open PosixDirectorySourceAccessor

variable {fs : FileSystem} {kernel : Kernel} {root q : Path} {bs : Bytes} {e : Error}

/-- A dump that fails has written a part of the node of a tree; what is missing has been made up. -/
theorem Walked.dump_cut (hlimits : fs.WithinLimits) (levels : Nat) {relPath : CanonPath}
    (hq : Walked fs root q) (hlabel : fs.label (root ++ q) ≠ none)
    (h : (posixDirectorySourceAccessor fs kernel root).dump levels q relPath = ⟨bs, .error e⟩) :
    ∃ t : Tree, t.Representable ∧ Cut bs t.encodeNode := by
  have hempty : (Tree.regular false []).Representable := .regular false (by decide)
  induction levels generalizing q relPath bs e with
  | zero =>
      rw [SourceAccessor.dump, Emit.throw_def, Emit.mk.injEq] at h
      obtain ⟨rfl, -⟩ := h
      exact ⟨_, hempty, cut_nil (by simp [Tree.encodeNode, encodeString_ne_nil])⟩
  | succ levels ih =>
      obtain ⟨l, hl⟩ := Option.ne_none_iff_exists'.mp hlabel
      cases l with
      | regular executable contents =>
          rw [(Walked.shows_regular hq hl).dump (levels + 1) relPath (by simp [Util.Tree.height])] at h
          cases h
      | symlink target =>
          rw [(Walked.shows_symlink hq hl).dump (levels + 1) relPath (by simp [Util.Tree.height])] at h
          cases h
      | device type =>
          obtain ⟨err, hdump⟩ := Walked.dump_device kernel hq hl levels relPath
          rw [hdump, Emit.mk.injEq] at h
          obtain ⟨rfl, -⟩ := h
          refine ⟨_, hempty, _, ?_, by rw [Tree.encodeNode, List.append_assoc, List.append_assoc]⟩
          simp [encodeString_ne_nil]
      | directory =>
          have hdir := FileSystem.isDir_of_label hl
          obtain ⟨hsorted, hmem⟩ := dumped_spec fs kernel (root ++ q)
          rw [Walked.dump_directory hq hdir] at h
          rcases hloop : (((dumped (readEntriesFrom fs kernel (root ++ q))).map (·.1)).forM
            (writeEntry fun name => (posixDirectorySourceAccessor fs kernel root).dump levels
              (q ++ [name]) [name]) >>= fun _ => writeString (str ")")) with ⟨items, r⟩
          rw [hloop, Emit.prepend_mk, Emit.mk.injEq] at h
          obtain ⟨rfl, rfl⟩ := h
          have hnode : ∀ name ∈ (dumped (readEntriesFrom fs kernel (root ++ q))).map (·.1),
              fs.label (root ++ (q ++ [name])) ≠ none := by
            intro name hname
            rw [← List.append_assoc]
            exact (hmem name).mp hname
          have hok : ∀ name ∈ (dumped (readEntriesFrom fs kernel (root ++ q))).map (·.1), ∀ bs,
              (posixDirectorySourceAccessor fs kernel root).dump levels (q ++ [name]) [name] =
                ⟨bs, .ok ()⟩ → ∃ t : Tree, t.Representable ∧ bs = t.encodeNode := by
            intro name hname bs hchild
            have hwalked : Walked fs root (q ++ [name]) := Walked.child hq.1 hdir
            obtain ⟨t, ht, horder, hheight⟩ :=
              Walked.holds_of_dump levels hwalked (hnode name hname) hchild
            rw [(ht.shows horder hwalked).dump levels [name] hheight] at hchild
            exact ⟨t, ht.representable horder hlimits, (congrArg Emit.emitted hchild).symm⟩
          obtain ⟨entries, hnames, hentries, hcut⟩ := forM_writeEntry_cut hok
            (fun name hname _ _ hchild => ih (Walked.child hq.1 hdir) (hnode name hname) hchild) hloop
          refine ⟨.directory entries, .directory (fun e he => ?_) (hsorted.sublist hnames) hentries, ?_⟩
          · have hlisted := hnode e.1 (hnames.subset (List.mem_map_of_mem he))
            rw [← List.append_assoc] at hlisted
            exact hlimits.name (root ++ q) e.1 (FileSystem.node_of_label hlisted)
          · rw [Tree.encodeNode]
            exact hcut.append_left _

/-- A dump that fails has written a part of an archive. -/
theorem dumpPath_cut (hlimits : fs.WithinLimits) (h : dumpPath fs kernel root = ⟨bs, .error e⟩) :
    ∃ t : Tree, t.Representable ∧ Cut bs t.nar := by
  have hmagic : Cut [] (Tree.regular false []).nar :=
    cut_nil (by simp [Tree.nar, encodeString_ne_nil])
  by_cases hdumped : Dumped (fs.label root)
  · obtain ⟨l, hl⟩ := Option.ne_none_iff_exists'.mp hdumped.1
    have hleaf : ∀ t, treeLabel t = l → l ≠ .directory → InOrder t → t.height ≤ narMaxDepth → False := by
      rintro t rfl hdir horder hheight
      rw [(FileSystem.Holds.leaf hl hdir).dumpPath horder hheight] at h
      cases h
    cases l with
    | regular executable contents =>
        exact (hleaf (.regular executable contents) rfl (by simp) (.regular _ _)
          (by simp [Util.Tree.height, narMaxDepth])).elim
    | symlink target =>
        exact (hleaf (.symlink target) rfl (by simp) (.symlink _)
          (by simp [Util.Tree.height, narMaxDepth])).elim
    | device type => exact absurd hl (hdumped.2 type)
    | directory =>
        have hdir := FileSystem.isDir_of_label hl
        rw [dumpPath_directory hdir] at h
        rcases hdump : (posixDirectorySourceAccessor fs kernel root).dump narMaxDepth [] [] with
          ⟨node, r⟩
        rw [hdump, Emit.prepend_mk, Emit.mk.injEq] at h
        obtain ⟨rfl, rfl⟩ := h
        obtain ⟨t, ht, hcut⟩ := Walked.dump_cut hlimits narMaxDepth (Walked.start hdir)
          (by rw [List.append_nil, hl]; simp) hdump
        exact ⟨t, ht, hcut.append_left _⟩
  · obtain ⟨err, hrefused⟩ := dumpPath_refused kernel hdumped
    rw [hrefused, Emit.mk.injEq] at h
    obtain ⟨rfl, -⟩ := h
    exact ⟨_, .regular false (by decide), hmagic⟩

end Host
end Archinix
