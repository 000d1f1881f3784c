import Archinix.Store.DeletePath

/-!
# Garbage collector roots

`findRoots` of `gc.cc`.  A symlink anywhere under `gcroots` whose target leads
into the store roots that store path (`RootLink`).  As long as the directories
and links under `gcroots` can be read, `findRoots` collects exactly the rooted
valid paths.
-/

namespace Archinix
namespace Store

open Foundation Util Host

/-- `Roots`: a set of store paths. -/
abbrev Roots := List StorePath

/-- The failures `findRoots` takes for permanent and ignores: `permission_denied`,
`no_such_file_or_directory` and `not_a_directory`. -/
def isPermanent (e : Errno) : Bool := e = .eacces ∨ e = .enoent ∨ e = .enotdir

def readLink (path : Path) : Action Bytes := do
  checkInterrupt
  sys (.readlink path) (.systemError · ⟨.error, "reading symbolic link %s", [CanonPath.abs path]⟩)

/-- The type passed down from the directory entry, or `symlink_status(path)`;
`file_type::not_found` is no type. -/
def symlinkStatus (path : Path) : Option FileType → Action (Option FileType)
  | some type => pure (some type)
  | none => ask (.sys (.lstat path)) fun
      | .ok st => .ok (some st.type)
      | .error e => if e = .enoent ∨ e = .enotdir then .ok none else .error (.filesystemError e)

section FindRoots

variable (config : LocalStoreConfig)

/-- What a link with this target adds to the roots. -/
def addRoot (target : Bytes) (roots : Roots) : Action Roots :=
  if !config.isInStore target then pure roots
  else
    match config.toStorePath target with
    | .ok (storePath, _) => do
        if ← isValidPath storePath then pure (roots.insert storePath) else pure roots
    | .error e => if e.cls = .badStorePath then pure roots else throw (.error e)

/-- The handlers around the body of `findRoots`.  Whatever it throws that is
ignored here, it throws before it adds a root. -/
def ignorePermanent (path : Path) (roots : Roots) (body : Action Roots) : Action Roots := do
  match ← body.attempt with
  | .ok roots => pure roots
  | .error (.filesystemError e) =>
      if isPermanent e then pure roots
      else throw (.systemError e ⟨.error, "finding GC roots in %1%", [CanonPath.abs path]⟩)
  | .error (.systemError e err) => if isPermanent e then pure roots else throw (.systemError e err)
  | .error e => throw e

def findRoots : (depth : Nat) → (path : Path) → (type : Option FileType) → Roots → Action Roots
  | 0, _, _, _ => .spin
  | depth + 1, path, type, roots => ignorePermanent path roots do
      let type ← symlinkStatus path type
      match type with
      | some .tDirectory => do
          let listing ← sys (.readdir path)
            (.systemError · ⟨.error, "cannot read directory %s", [CanonPath.abs path]⟩)
          -- an error past the first entry ends the iteration like its end does
          listing.entries.foldlM (fun roots dirent => do
            checkInterrupt
            findRoots depth (path ++ [dirent.name]) (some dirent.type) roots) roots
      | some .tSymlink => do
          let target ← readLink path
          addRoot config target roots
      | _ => pure roots

/-! ## What roots a path -/

/-- The link at `q` has the given target. -/
def SymlinkAt (fs : FileSystem) (q : Path) (target : Bytes) : Prop :=
  ∃ i, fs.node q = some (.leaf i) ∧ (fs.inode i).kind = .symlink target

/-- The link at `q` leads into the store path. -/
def RootLink (fs : FileSystem) (q : Path) (path : StorePath) : Prop :=
  ∃ target rest, SymlinkAt fs q target ∧ config.isInStore target = true ∧
    config.toStorePath target = .ok (path, rest)

/-- The directories and links at and below `path` can be read. -/
def Readable (env : Environment) (path : Path) : Prop :=
  ∀ q, path <+: q → ∀ e, ¬ env.faults (.lstat q) e ∧ ¬ env.faults (.readdir q) e ∧
    ¬ env.faults (.readlink q) e

/-- A link whose target is a printed store path, or something below one. -/
theorem rootLink_of_printStorePath {config : LocalStoreConfig} {fs : FileSystem} {q : Path}
    {path : StorePath} {rest : Bytes}
    (hlink : SymlinkAt fs q (config.printStorePath path ++ rest))
    (hrest : rest = [] ∨ rest.head? = some 47) : RootLink config fs q path :=
  ⟨_, _, hlink, config.isInStore_printStorePath path hrest,
    config.toStorePath_printStorePath path hrest⟩

theorem SymlinkAt.unique {fs : FileSystem} {q : Path} {target target' : Bytes}
    (h : SymlinkAt fs q target) (h' : SymlinkAt fs q target') : target = target' := by
  obtain ⟨i, hi, hkind⟩ := h
  obtain ⟨j, hj, hkind'⟩ := h'
  obtain rfl : i = j := by simpa [hi] using hj
  simpa [hkind] using hkind'

theorem RootLink.unique {fs : FileSystem} {q : Path} {path path' : StorePath}
    (h : RootLink config fs q path) (h' : RootLink config fs q path') : path = path' := by
  obtain ⟨target, rest, hlink, -, hpath⟩ := h
  obtain ⟨target', rest', hlink', -, hpath'⟩ := h'
  obtain rfl := hlink.unique hlink'
  rw [hpath] at hpath'
  exact (Prod.mk.inj (Except.ok.inj hpath')).1

/-- A valid path with a root link at or below `path`. -/
def RootedBelow (w : World) (path : Path) (p : StorePath) : Prop :=
  w.db.Valid p ∧ ∃ q, path <+: q ∧ RootLink config w.fs q p

end FindRoots

/-! ## What it finds -/

section Spec

variable {env : Environment} {config : LocalStoreConfig} {deep : Prop} {w : World}

/-- The postcondition of `findRoots` and its parts: nothing changes, and where
everything can be read the roots found are those there are. -/
structure Found (env : Environment) (config : LocalStoreConfig) (w : World) (path : Path)
    (roots : Roots) (r : Except Exception Roots) (w' : World) : Prop where
  same : w' = w
  roots : Readable env path → ∀ roots', r = .ok roots' →
    ∀ p, p ∈ roots' ↔ p ∈ roots ∨ RootedBelow config w path p
  plain : Readable env path → ∀ e, r = .error e → e = .interrupted ∨ ∃ err, e = .error err
  complete : env.Reliable → ∃ roots', r = .ok roots'

theorem Environment.Reliable.readable (h : env.Reliable) (path : Path) : Readable env path :=
  fun _ _ _ => ⟨h.faults _ _, h.faults _ _, h.faults _ _⟩

theorem Readable.child {path : Path} (h : Readable env path) (name : Name) :
    Readable env (path ++ [name]) :=
  fun q hq => h q ((List.prefix_append _ _).trans hq)

theorem Found.interrupted {path : Path} {roots : Roots} (h : env.interrupts) :
    Found env config w path roots (.error .interrupted) w :=
  ⟨rfl, by simp, by simp, fun hrel => absurd h hrel.interrupts⟩

/-- A failure that `Readable` and `Reliable` rule out. -/
theorem Found.failed {path : Path} {roots : Roots} {r : Except Exception Roots}
    (h : ¬ Readable env path) : Found env config w path roots r w :=
  ⟨rfl, fun hread => absurd hread h, fun hread => absurd hread h,
    fun hrel => absurd (hrel.readable path) h⟩

theorem Found.ok {path : Path} {roots roots' : Roots}
    (h : ∀ p, p ∈ roots' ↔ p ∈ roots ∨ RootedBelow config w path p) :
    Found env config w path roots (.ok roots') w :=
  ⟨rfl, fun _ _ hroots => Except.ok.inj hroots ▸ h, by simp, fun _ => ⟨_, rfl⟩⟩

theorem ignorePermanent_spec {path : Path} {roots : Roots} {body : Action Roots}
    (h : body.wp (exec env config) deep (Found env config w path roots) w) :
    (ignorePermanent path roots body).wp (exec env config) deep (Found env config w path roots) w := by
  rw [ignorePermanent, Prog.bind_def, Prog.wp_bind, Prog.wp_attempt]
  refine Prog.wp_mono h fun r w' hfound => ?_
  obtain rfl := hfound.same
  have hfailed : ∀ {e}, r = .error e → e ≠ .interrupted → (∀ err, e ≠ .error err) →
      ¬ Readable env path := fun hr hint herr hread =>
    (hfound.plain hread _ hr).elim hint fun ⟨err, herr'⟩ => herr err herr'
  rcases r with e | roots'
  · cases e with
    | error err => exact hfound
    | interrupted => exact hfound
    | systemError e err =>
        have hnot := hfailed rfl (by simp) (by simp)
        rw [Prog.next_ok]
        dsimp only
        split <;> exact Found.failed hnot
    | filesystemError e =>
        have hnot := hfailed rfl (by simp) (by simp)
        rw [Prog.next_ok]
        dsimp only
        split <;> exact Found.failed hnot
  · exact hfound

/-- The only node below a link is the link. -/
theorem eq_of_below_leaf {fs : FileSystem} {path q : Path} {i : Nat}
    (h : fs.node path = some (.leaf i)) (hq : path <+: q) (hnode : fs.node q ≠ none) : q = path := by
  obtain ⟨r, rfl⟩ := hq
  by_contra hne
  obtain ⟨mode, mtime, hdir⟩ := FileSystem.isDir_of_below (p := path) (r := r) (by simpa using hne) hnode
  rw [h] at hdir
  cases hdir

theorem RootLink.exists {fs : FileSystem} {q : Path} {p : StorePath}
    (h : RootLink config fs q p) : fs.node q ≠ none := by
  obtain ⟨_, _, ⟨i, hi, -⟩, -⟩ := h
  simp [hi]

theorem rootedBelow_leaf {path : Path} {i : Nat} (h : w.fs.node path = some (.leaf i))
    {p : StorePath} :
    RootedBelow config w path p ↔ w.db.Valid p ∧ RootLink config w.fs path p := by
  constructor
  · rintro ⟨hvalid, q, hq, hlink⟩
    obtain rfl := eq_of_below_leaf h hq hlink.exists
    exact ⟨hvalid, hlink⟩
  · rintro ⟨hvalid, hlink⟩
    exact ⟨hvalid, path, List.prefix_refl _, hlink⟩

/-- The roots below a directory are those below its entries. -/
theorem rootedBelow_directory {path : Path} (h : w.fs.IsDir path) {p : StorePath} :
    RootedBelow config w path p ↔
      ∃ name, w.fs.node (path ++ [name]) ≠ none ∧ RootedBelow config w (path ++ [name]) p := by
  constructor
  · rintro ⟨hvalid, q, ⟨r, rfl⟩, hlink⟩
    cases r with
    | nil =>
        obtain ⟨mode, mtime, hdir⟩ := h
        obtain ⟨_, _, ⟨i, hi, -⟩, -⟩ := hlink
        simp [hdir] at hi
    | cons name r =>
        have hsplit : path ++ name :: r = path ++ [name] ++ r := by simp
        refine ⟨name, FileSystem.exists_of_below (hsplit ▸ hlink.exists), hvalid, _,
          ⟨r, hsplit.symm⟩, hlink⟩
  · rintro ⟨name, -, hvalid, q, hq, hlink⟩
    exact ⟨hvalid, q, (List.prefix_append _ _).trans hq, hlink⟩

theorem rootedBelow_none {path : Path} (h : w.fs.node path = none) (p : StorePath) :
    ¬ RootedBelow config w path p := by
  rintro ⟨-, q, ⟨r, rfl⟩, hlink⟩
  exact FileSystem.exists_of_below hlink.exists h

/-- What lies in the store directory is an absolute path. -/
theorem isAbsolute_of_isInStore {target : Bytes} (h : config.isInStore target = true) :
    isAbsolute target = true := by
  by_contra hrel
  have hstore : isAbsolute (CanonPath.abs config.storeDir) = true := by
    simpa using isAbsolute_abs config.storeDir []
  have hne : isAbsolute target ≠ isAbsolute (CanonPath.abs config.storeDir) := by
    rw [hstore]
    exact hrel
  simp [StoreDirConfig.isInStore, isInDir, lexicallyRelative, hne] at h

theorem isAbsolute_take {path rest : Bytes} {n : Nat} (h : isAbsolute path = true) :
    isAbsolute (path.take (n + 1) ++ rest) = true := by
  cases path with
  | nil => simp [isAbsolute] at h
  | cons c path => simpa [isAbsolute] using h

theorem toStorePath_error {target : Bytes} {e : Error} (hin : config.isInStore target = true)
    (h : config.toStorePath target = .error e) : e.cls = .badStorePath := by
  unfold StoreDirConfig.toStorePath at h
  rw [hin] at h
  simp only [Bool.not_true, Bool.false_eq_true, if_false] at h
  split at h
  · cases h
  · rename_i e' he'
    cases h
    exact StoreDirConfig.parseStorePath_error (isAbsolute_take (isAbsolute_of_isInStore hin)) he'

theorem wp_isValidPath {path : StorePath} {Q : Except Exception Bool → World → Prop}
    (hok : Q (.ok (w.db.isValidPath_ path)) w)
    (hfail : env.dbFails → ∀ e : Error, Q (.error (.error e)) w) :
    (isValidPath path).wp (exec env config) deep Q w := by
  rw [isValidPath, wp_ask]
  rintro x _ ⟨rfl | ⟨hdb, e, -, rfl⟩, rfl⟩
  · exact hok
  · exact hfail hdb e

/-- A database statement or an interrupt cuts the search short. -/
theorem Found.dbFailed {path : Path} {roots : Roots} (h : env.dbFails) (e : Error) :
    Found env config w path roots (.error (.error e)) w :=
  ⟨rfl, by simp, fun _ _ he => Or.inr ⟨e, (Except.error.inj he).symm⟩,
    fun hrel => absurd h hrel.dbFails⟩

/-- What a link adds to the roots. -/
theorem addRoot_spec {path : Path} {target : Bytes} {roots : Roots}
    (hlink : SymlinkAt w.fs path target) :
    (addRoot config target roots).wp (exec env config) deep (Found env config w path roots) w := by
  have hleaf : ∀ p, RootedBelow config w path p ↔ w.db.Valid p ∧ RootLink config w.fs path p :=
    fun p => by
      obtain ⟨i, hi, -⟩ := hlink
      exact rootedBelow_leaf hi
  have hnone : (∀ p, RootLink config w.fs path p → ¬ w.db.Valid p) →
      Found env config w path roots (.ok roots) w := fun h =>
    Found.ok fun p => by
      rw [hleaf]
      exact ⟨Or.inl, fun hp => hp.elim id fun ⟨hvalid, hroot⟩ => absurd hvalid (h p hroot)⟩
  have htarget : ∀ p, RootLink config w.fs path p → config.isInStore target = true ∧
      ∃ rest, config.toStorePath target = .ok (p, rest) := by
    rintro p ⟨target', rest, hlink', hin, hpath⟩
    obtain rfl := hlink.unique hlink'
    exact ⟨hin, rest, hpath⟩
  unfold addRoot
  split
  · rename_i hin
    exact hnone fun p hroot => absurd (htarget p hroot).1 (by simpa using hin)
  · rename_i hin
    split
    · rename_i storePath rest hpath
      have honly : ∀ p, RootLink config w.fs path p ↔ p = storePath := by
        intro p
        constructor
        · intro hroot
          obtain ⟨-, rest', hpath'⟩ := htarget p hroot
          rw [hpath] at hpath'
          exact (Prod.mk.inj (Except.ok.inj hpath')).1.symm
        · rintro rfl
          exact ⟨target, rest, hlink, by simpa using hin, hpath⟩
      rw [Prog.bind_def, Prog.wp_bind]
      refine wp_isValidPath ?_ fun hdb e => Found.dbFailed hdb e
      rw [Prog.next_ok]
      by_cases hvalid : w.db.isValidPath_ storePath = true
      · rw [if_pos hvalid]
        refine Found.ok fun p => ?_
        rw [List.mem_insert_iff, hleaf, honly, or_comm]
        exact or_congr_right ⟨fun hp => ⟨hp ▸ hvalid, hp⟩, And.right⟩
      · rw [if_neg hvalid]
        exact hnone fun p hroot => (honly p).mp hroot ▸ hvalid
    · rename_i e he
      have hcls := toStorePath_error (by simpa using hin) he
      rw [if_pos hcls]
      refine hnone fun p hroot => ?_
      obtain ⟨-, rest, hpath⟩ := htarget p hroot
      rw [he] at hpath
      cases hpath

/-- A link is read and its root added. -/
theorem followLink_spec {path : Path} {target : Bytes} {roots : Roots}
    (hlink : SymlinkAt w.fs path target) :
    (do let target ← readLink path; addRoot config target roots : Action Roots).wp
      (exec env config) deep (Found env config w path roots) w := by
  obtain ⟨i, hnode, hkind⟩ := hlink
  have hread : w.fs.readlink path = .ok target := by
    simp [FileSystem.readlink, hnode, hkind]
  simp only [readLink, Prog.bind_def, Prog.wp_bind, wp_checkInterrupt]
  refine ⟨wp_sys.mpr fun x fs hout => ?_, fun hint => Found.interrupted hint⟩
  obtain ⟨rfl, rfl | ⟨e, hfault, rfl⟩⟩ := hout.readlink
  · rw [hread]
    exact addRoot_spec ⟨i, hnode, hkind⟩
  · exact Found.failed fun hread => (hread path (List.prefix_refl _) e).2.2 hfault

/-- The type handed down with a path is that of its node. -/
def TypeKnown (fs : FileSystem) (path : Path) : Option FileType → Prop
  | none => True
  | some type => ∃ n, fs.node path = some n ∧ (fs.statNode n).type = type

theorem symlinkStatus_spec {path : Path} {type : Option FileType}
    (htype : TypeKnown w.fs path type) :
    (symlinkStatus path type).wp (exec env config) deep (fun r w' => w' = w ∧
      (r = .ok ((w.fs.node path).map fun n => (w.fs.statNode n).type) ∨
        (¬ Readable env path ∧ (r = .ok none ∨ ∃ e, r = .error (.filesystemError e))))) w := by
  cases type with
  | some type =>
      obtain ⟨n, hnode, rfl⟩ := htype
      exact ⟨rfl, Or.inl (by simp [hnode])⟩
  | none =>
      rintro x _ ⟨fs, hout, rfl⟩
      obtain ⟨rfl, rfl | ⟨e, hfault, rfl⟩⟩ := hout.lstat
      · refine ⟨rfl, Or.inl ?_⟩
        rcases hnode : w.fs.node path with - | n
        · have hmissing : w.fs.missing path = .enoent ∨ w.fs.missing path = .enotdir := by
            unfold FileSystem.missing
            split <;> simp
          simp [FileSystem.lstat, hnode, hmissing]
        · simp [FileSystem.lstat, hnode]
      · refine ⟨rfl, Or.inr ⟨fun hread => (hread path (List.prefix_refl _) e).1 hfault, ?_⟩⟩
        by_cases he : e = .enoent ∨ e = .enotdir
        · exact Or.inl (by simp [he])
        · exact Or.inr ⟨e, by simp [he]⟩

/-- The links below a directory, entry by entry. -/
theorem findRoots_entries {path : Path} {roots : Roots} {child : Path → Option FileType → Roots →
    Action Roots} (hdir : w.fs.IsDir path)
    (hchild : ∀ e ∈ w.fs.entries path, ∀ roots,
      (child (path ++ [e.name]) (some e.type) roots).wp (exec env config) deep
        (Found env config w (path ++ [e.name]) roots) w) :
    (do
      let listing ← sys (.readdir path)
        (.systemError · ⟨.error, "cannot read directory %s", [CanonPath.abs path]⟩)
      listing.entries.foldlM (fun roots dirent => do
        checkInterrupt
        child (path ++ [dirent.name]) (some dirent.type) roots) roots : Action Roots).wp
      (exec env config) deep (Found env config w path roots) w := by
  rw [Prog.bind_def, Prog.wp_bind, wp_sys]
  intro x fs hout
  obtain ⟨rfl, ⟨listing, rfl, hreads, hcut⟩ | ⟨e, rfl, hfail⟩⟩ := hout.readdir
  · rw [thrown_ok, Prog.next_ok]
    refine Prog.wp_foldlM (fun (rest : List DirEntry) (roots' : Roots) (w' : World) => w' = w ∧
      (∀ e ∈ rest, e ∈ w.fs.entries path) ∧ (Readable env path → ∀ p,
        (p ∈ roots ∨ RootedBelow config w path p) ↔ p ∈ roots' ∨
          ∃ e ∈ rest, RootedBelow config w (path ++ [e.name]) p)) ?_ ?_
      ⟨rfl, fun e he => hreads.sub.subset he, fun hread p => ?_⟩
    · rintro e rest roots' _ ⟨rfl, hrest, hroots⟩
      rw [Prog.bind_def, Prog.wp_bind, wp_checkInterrupt]
      refine ⟨Prog.wp_mono (hchild e (hrest e (by simp)) roots') ?_, fun hint =>
        Found.interrupted hint⟩
      rintro r w'' hfound
      obtain rfl := hfound.same
      cases r with
      | error err => exact ⟨rfl, by simp, fun hread => hfound.plain (hread.child _),
          fun hrel => absurd (hfound.complete hrel) (by simp)⟩
      | ok roots'' =>
          refine ⟨rfl, fun e he => hrest e (List.mem_cons_of_mem _ he), fun hread p => ?_⟩
          rw [hroots hread p, hfound.roots (hread.child _) _ rfl p]
          simp only [List.mem_cons, exists_eq_or_imp]
          tauto
    · rintro roots' _ ⟨rfl, -, hroots⟩
      exact ⟨rfl, fun hread _ hok p => by
        rw [hroots hread p, ← Except.ok.inj hok]
        simp, by simp, fun _ => ⟨_, rfl⟩⟩
    · have hall := hreads.all (Option.eq_none_iff_forall_ne_some.mpr fun e he =>
        (hread path (List.prefix_refl _) e).2.1 (hcut e he))
      rw [rootedBelow_directory hdir]
      refine or_congr_right ⟨?_, ?_⟩
      · rintro ⟨name, hname, hroot⟩
        have hmem : name ∈ (w.fs.entries path).map (·.name) := by
          rw [FileSystem.map_name_entries, FileSystem.mem_names]
          exact hname
        obtain ⟨e, he, rfl⟩ := List.mem_map.mp hmem
        exact ⟨e, hall.mem_iff.mpr he, hroot⟩
      · rintro ⟨e, he, hroot⟩
        obtain ⟨n, hn, -⟩ := FileSystem.mem_entries.mp (hall.mem_iff.mp he)
        exact ⟨e.name, by simp [hn], hroot⟩
  · refine Found.failed fun hread => ?_
    rcases hfail with hfault | hnot
    · exact (hread path (List.prefix_refl _) e).2.1 hfault
    · exact hnot hdir

/-- `findRoots` collects the valid paths rooted at or below `path`. -/
theorem findRoots_spec {depth : Nat} {path : Path} (type : Option FileType) {roots : Roots}
    (htype : TypeKnown w.fs path type) (hdepth : deep ∨ WithinDepth w.fs path depth) :
    (findRoots config depth path type roots).wp (exec env config) deep
      (Found env config w path roots) w := by
  induction depth generalizing path type roots with
  | zero => exact hdepth.resolve_right fun h => absurd h.1 (lt_irrefl 0)
  | succ depth ih =>
      rw [findRoots]
      refine ignorePermanent_spec ?_
      rw [Prog.bind_def, Prog.wp_bind]
      refine Prog.wp_mono (symlinkStatus_spec htype) ?_
      rintro r w' ⟨rfl, rfl | ⟨hnot, rfl | ⟨e, rfl⟩⟩⟩
      · rw [Prog.next_ok]
        rcases hnode : w'.fs.node path with - | ⟨mode, mtime⟩ | i
        · refine Found.ok fun p => ?_
          simp [rootedBelow_none hnode p]
        · refine findRoots_entries ⟨mode, mtime, hnode⟩ fun e he roots => ?_
          obtain ⟨n, hn, hentry⟩ := FileSystem.mem_entries.mp he
          refine ih _ ⟨n, hn, ?_⟩ (hdepth.imp id fun h => h.child (by simp [hn]))
          rw [hentry]
          cases n <;> rfl
        · rcases hkind : (w'.fs.inode i).kind with contents | target | (_ | _ | _ | _)
          case symlink =>
            simp only [Option.map_some, FileSystem.statNode, FileSystem.statInode, hkind,
              InodeKind.type]
            exact followLink_spec ⟨i, hnode, hkind⟩
          all_goals
            simp only [Option.map_some, FileSystem.statNode, FileSystem.statInode, hkind,
              InodeKind.type, SpecialType.type]
            refine Found.ok fun p => ?_
            rw [rootedBelow_leaf hnode]
            refine ⟨Or.inl, fun hp => hp.elim id ?_⟩
            rintro ⟨-, target, rest, ⟨j, hj, hsym⟩, -⟩
            obtain rfl : i = j := by simpa [hnode] using hj
            simp [hkind] at hsym
      · exact Found.failed hnot
      · exact Found.failed hnot

end Spec

end Store
end Archinix
