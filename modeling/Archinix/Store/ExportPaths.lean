import Archinix.Host.DumpPath
import Archinix.Store.ContentAddress
import Archinix.Store.Operations
import Archinix.Util.SkipContents

/-!
# Exported paths

`exportPaths` of `export-import.cc`, and what one round of the loop of `importVerified` in
`import-path.cc` reads: `readRecord` reads back what `exportPath` writes of an intact path
(`written_record`), and passes on no record whose path is not that of its bytes
(`accepts_readRecord`).
-/

namespace Archinix
namespace Store
namespace Exporting

open Foundation Util Host

def exportMagic : Nat := 0x4558494f

/-! ## Writing -/

section Writing

variable [Sha256] (config : LocalStoreConfig) (fs : FileSystem) (kernel : Kernel) (db : Database)

def writeStorePathSet (paths : List StorePath) : Writer Unit := do
  writeNum paths.length
  paths.forM fun path => writeString (config.printStorePath path)

def queryPathInfo (path : StorePath) : Writer ValidPathInfo :=
  match db.queryPathInfoInternal config.toStoreDirConfig path with
  | .ok (some info) => pure info
  | .ok none => throw ⟨.invalidPath, "path '%s' is not valid", [config.printStorePath path]⟩
  | .error e => throw e

def exportPath (path : StorePath) : Writer Unit := do
  let info ← queryPathInfo config db path
  let dumped := dumpPath fs kernel (config.toRealPath path)
  dumped
  let hash := hashString dumped.emitted
  if hash ≠ info.narHash ∧ info.narHash ≠ nullHash then
    throw ⟨.error, "hash of path '%s' has changed from '%s' to '%s'!",
      [config.printStorePath path, info.narHash.nix32, hash.nix32]⟩
  else
    writeNum exportMagic
    writeString (config.printStorePath path)
    writeStorePathSet config info.references

def exportPaths (paths : List StorePath) : Writer Unit := do
  paths.forM fun path => do
    writeNum 1
    exportPath config fs kernel db path
  writeNum 0

/-- The path is registered, without references, as what lies there. -/
structure Intact (path : StorePath) (t : Tree) : Prop where
  archives : fs.Archives (config.toRealPath path) t
  row : ∃ row, db.queryPathInfo path = some row ∧ row.hash = hashString t.nar ∧
    row.narSize = some t.nar.length ∧ db.queryReferences row = []
  path_eq : config.makeContentAddressedPath path.name (hashString t.nar) = .ok path

/-- What `exportPaths` writes of an intact path. -/
def record (cfg : StoreDirConfig) (path : StorePath) (t : Tree) : Bytes :=
  littleEndian 1 ++ (t.nar ++ (littleEndian exportMagic ++
    (encodeString (cfg.printStorePath path) ++ littleEndian 0)))

variable {config fs kernel db}

theorem exportPath_intact {path : StorePath} {t : Tree} (h : Intact config fs db path t) :
    exportPath config fs kernel db path = ⟨t.nar ++ (littleEndian exportMagic ++
      (encodeString (config.printStorePath path) ++ littleEndian 0)), .ok ()⟩ := by
  obtain ⟨row, hrow, hhash, -, hreferences⟩ := h.row
  have hlength : row.hash.length = hashSizeSha256 := by rw [hhash, length_hashString]
  have hinfo : queryPathInfo config db path =
      pure ⟨path, row.hash, [], row.registrationTime, row.narSize.getD 0, row.ca⟩ := by
    rw [queryPathInfo, Database.queryPathInfoInternal, hrow]
    simp only [hlength, ne_eq, not_true_eq_false, if_false, hreferences]
  have hset : writeStorePathSet config [] = ⟨littleEndian 0, .ok ()⟩ := rfl
  rw [exportPath, hinfo, h.archives.dumpPath]
  simp only [Emit.pure_def, Emit.bind_ok, Emit.prepend_nil, hhash]
  rw [if_neg (by simp)]
  simp only [writeNum_eq, writeString_eq, hset, Emit.bind_ok, Emit.prepend_mk]

theorem exportPaths_intact {paths : List StorePath} {tree : StorePath → Tree}
    (h : ∀ p ∈ paths, Intact config fs db p (tree p)) :
    exportPaths config fs kernel db paths = ⟨paths.flatMap (fun p =>
      record config.toStoreDirConfig p (tree p)) ++ littleEndian 0, .ok ()⟩ := by
  have hloop : (paths.forM fun path => do
      writeNum 1
      exportPath config fs kernel db path) =
      (⟨paths.flatMap fun p => record config.toStoreDirConfig p (tree p), .ok ⟨⟩⟩ : Writer PUnit) := by
    induction paths with
    | nil => rfl
    | cons p rest ih =>
        have hrest := ih fun q hq => h q (List.mem_cons_of_mem _ hq)
        simp only [List.forM_eq_forM, List.forM_cons] at hrest ⊢
        rw [hrest, exportPath_intact (h p List.mem_cons_self)]
        simp only [writeNum_eq, Emit.bind_ok, Emit.prepend_mk, record, List.flatMap_cons, List.append_assoc]
  rw [exportPaths, hloop]
  simp only [writeNum_eq, Emit.bind_ok, Emit.prepend_mk]

end Writing

/-! ## Reading -/

section Reading

variable {ω : Type} (cfg : StoreDirConfig) (reads : ReadSizes)

/-- A result that needs no reading. -/
def ofExcept {α : Type} (r : Except Error α) : Reader ω α := fun src => ⟨[], r.map (·, src)⟩

/-- What a reader reads through a `TeeSource` into a `StringSink`. -/
def saving (p : Reader ω Unit) : Reader ω Bytes := fun src => do
  let (_, rest) ← p src
  pure (src.take (src.length - rest.length), rest)

/-- `parseDump` into a `NullFileSystemObjectSink`. -/
def parseIntoEther : Reader ω Unit := fun src => ⟨[], (parseIntoNull reads src).map ((), ·)⟩

/-- The loop of `readStorePathSet`. -/
def readStorePaths : (size : Nat) → (res : List StorePath) → Reader ω (List StorePath)
  | 0, res => pure res
  | size + 1, res => do
      let s ← readString (2 ^ 64 - 1)
      let path ← ofExcept (cfg.parseStorePath s)
      readStorePaths size (insertStorePath path res)

def readStorePathSet : Reader ω (List StorePath) := do
  let size ← readLongLong
  readStorePaths cfg size []

/-- One round of the loop of `importVerified`, up to `addToStore`: the info and the saved bytes,
or nothing at the end of the stream. -/
def readRecord [Sha256] : Reader ω (Option (ValidPathInfo × Bytes)) := do
  let n ← readLongLong
  if n = 0 then
    return none
  else
    throwIf (n ≠ 1) ⟨.error, "input doesn't look like an export-path stream", []⟩
    let saved ← saving (parseIntoEther reads)
    let magic ← readInt
    throwIf (magic ≠ exportMagic) ⟨.error, "Nix archive cannot be imported; wrong format", []⟩
    let s ← readString (2 ^ 64 - 1)
    let path ← ofExcept (cfg.parseStorePath s)
    let references ← readStorePathSet cfg
    let narHash := hashString saved
    let expected ← ofExcept (cfg.makeContentAddressedPath path.name narHash)
    throwIf (path ≠ expected) ⟨.error,
      "integrity check failed: stream claims '%s' but its content " ++
        "hashes to '%s' (corrupted or not a CA NixArchive path)",
      [cfg.printStorePath path, cfg.printStorePath expected]⟩
    throwIf (references ≠ []) ⟨.error,
      "path '%s' claims %zu references; this store holds independent trees",
      [cfg.printStorePath path, natStr references.length]⟩
    return some
      ({ path, narHash, references, registrationTime := 0, narSize := saved.length, ca := none }, saved)

/-! ### What is read -/

/-- What reads nothing of its own, and what is read after it. -/
theorem reads_after {α β : Type} {p : Reader ω α} {f : α → Reader ω β} {a : α} {b : β} {bs : Bytes}
    (h : Reads p [] [] a) (hf : Reads (f a) bs [] b) : Reads (p >>= f) bs [] b :=
  h.bind hf

theorem reads_then {α β : Type} {p : Reader ω α} {f : α → Reader ω β} {a : α} {b : β}
    {bs bs' : Bytes} (h : Reads p bs [] a) (hf : Reads (f a) bs' [] b) :
    Reads (p >>= f) (bs ++ bs') [] b :=
  h.bind hf

theorem reads_last {α β : Type} {p : Reader ω α} {f : α → Reader ω β} {a : α} {b : β} {bs : Bytes}
    (h : Reads p bs [] a) (hf : Reads (f a) [] [] b) : Reads (p >>= f) bs [] b := by
  have hboth := reads_then h hf
  rwa [List.append_nil] at hboth

theorem reads_ofExcept {α : Type} {r : Except Error α} {a : α} (h : r = .ok a) :
    Reads (ofExcept r : Reader ω α) [] [] a := by
  rintro rest
  rw [ofExcept, h]
  rfl

theorem accepts_ofExcept {α : Type} (r : Except Error α) :
    Accepts (ofExcept r : Reader ω α) fun bs out a => bs = [] ∧ out = [] ∧ r = .ok a := by
  intro src out a rest h
  rcases r with e | b
  · simp [ofExcept, Except.map] at h
  · simp only [ofExcept, Except.map, Emit.mk.injEq, Except.ok.injEq, Prod.mk.injEq] at h
    obtain ⟨rfl, rfl, rfl⟩ := h
    exact ⟨[], rfl, rfl, rfl, rfl⟩

/-- What the parser that skips contents takes from the stream. -/
def Delimited (saved : Bytes) : Prop :=
  ∃ t node, Framed looseBlock t node ∧ t.FilesFit ∧ t.height ≤ narMaxDepth ∧
    saved = encodeString narVersionMagic1 ++ node

variable {cfg reads}

theorem saving_eq {saved rest : Bytes} (h : parseIntoNull reads (saved ++ rest) = .ok rest) :
    (saving (parseIntoEther reads) : Reader ω Bytes) (saved ++ rest) = ⟨[], .ok (saved, rest)⟩ := by
  simp [saving, parseIntoEther, h, Except.map]

theorem reads_saving {saved : Bytes} (h : Delimited saved) :
    Reads (saving (parseIntoEther reads) : Reader ω Bytes) saved [] saved := by
  obtain ⟨t, node, hframed, hfit, hheight, rfl⟩ := h
  intro rest
  exact saving_eq (parseIntoNull_eq_ok.mpr ⟨t, node, hframed, hfit, hheight, rfl⟩)

theorem accepts_saving : Accepts (saving (parseIntoEther reads) : Reader ω Bytes)
    fun bs out saved => out = [] ∧ saved = bs ∧ Delimited saved := by
  intro src out saved rest h
  rcases hnull : parseIntoNull reads src with e | left
  · simp [saving, parseIntoEther, hnull, Except.map] at h
  · obtain ⟨t, node, hframed, hfit, hheight, rfl⟩ := parseIntoNull_eq_ok.mp hnull
    rw [saving_eq hnull, Emit.mk.injEq, Except.ok.injEq, Prod.mk.injEq] at h
    obtain ⟨rfl, rfl, rfl⟩ := h
    exact ⟨_, rfl, rfl, rfl, t, node, hframed, hfit, hheight, rfl⟩

/-- What skipping the contents delimits ends where the archive at its beginning does. -/
theorem Delimited.unique {saved rest rest' : Bytes} {t : Tree} (h : Delimited saved)
    (ht : t.Representable) (heq : t.nar ++ rest = saved ++ rest') : saved = t.nar ∧ rest = rest' := by
  obtain ⟨u, node, hframed, -, -, rfl⟩ := h
  obtain ⟨-, hnode, hrest⟩ := StartsWithFraming.unique (framed_encodeNode ht) hframed rfl heq
  exact ⟨by rw [Tree.nar, hnode], hrest⟩

/-- What it has delimited is the archive at its beginning, and no more. -/
theorem Delimited.nar_eq {saved rest : Bytes} {t : Tree} (h : Delimited saved)
    (ht : t.Representable) (hsaved : saved = t.nar ++ rest) : saved = t.nar :=
  (h.unique ht (hsaved.symm.trans (List.append_nil saved).symm)).1

theorem delimited_nar {t : Tree} (ht : t.Representable) (hfit : t.FilesFit)
    (hheight : t.height ≤ narMaxDepth) : Delimited t.nar :=
  ⟨t, t.encodeNode, framed_encodeNode ht, hfit, hheight, rfl⟩

theorem reads_readInt {n : Nat} (h : n < 2 ^ 32) :
    Reads (readInt : Reader ω Nat) (littleEndian n) [] n := by
  have hdecode := readLittleEndian_littleEndian (h.trans (by decide))
  have hbytes := reads_readBytes (ω := ω) (littleEndian n)
  rw [littleEndian_length] at hbytes
  have hread : Reads (readInt : Reader ω Nat) _ _ (readLittleEndian (littleEndian n)) :=
    hbytes.bind ((reads_throwIf (by rw [hdecode]; omega) _).bind (Reads.pure _))
  simpa [hdecode] using hread

theorem accepts_readInt : Accepts (readInt : Reader ω Nat) fun bs out n =>
    out = [] ∧ bs = littleEndian n := by
  refine (accepts_readBytes 8).andThen ?_
  rintro buf _ _ ⟨rfl, rfl, hlength⟩
  refine Accepts.check fun _ => (Accepts.pure _).mono ?_
  rintro _ _ _ ⟨rfl, rfl, rfl⟩
  exact ⟨rfl, by rw [List.append_nil, littleEndian_readLittleEndian hlength]⟩

/-- Nothing but an empty set is read as one. -/
theorem accepts_readStorePaths (size : Nat) (res : List StorePath) :
    Accepts (readStorePaths cfg size res : Reader ω _) fun bs out paths =>
      paths = [] → size = 0 ∧ bs = [] ∧ out = [] := by
  have hne : ∀ {size : Nat} {res : List StorePath}, res ≠ [] →
      Accepts (readStorePaths cfg size res : Reader ω _) fun _ _ paths => paths ≠ [] := by
    intro size
    induction size with
    | zero =>
        intro res hres
        refine (Accepts.pure res).mono ?_
        rintro _ _ _ ⟨-, -, rfl⟩
        exact hres
    | succ size ih =>
        intro res hres
        refine (accepts_readString _).andThen fun _ _ _ _ => (accepts_ofExcept _).andThen
          fun _ _ path _ => ih ?_
        exact List.ne_nil_of_mem (mem_insertStorePath.mpr (Or.inl rfl))
  cases size with
  | zero => exact (Accepts.pure res).mono fun _ _ _ hpure _ => ⟨rfl, hpure.1, hpure.2.1⟩
  | succ size =>
      refine (accepts_readString _).andThen fun _ _ _ _ => (accepts_ofExcept _).andThen
        fun _ _ path _ => (hne ?_).mono fun _ _ _ hpaths hnil => absurd hnil hpaths
      exact List.ne_nil_of_mem (mem_insertStorePath.mpr (Or.inl rfl))

theorem accepts_readStorePathSet : Accepts (readStorePathSet cfg : Reader ω _) fun bs out paths =>
    paths = [] → bs = littleEndian 0 ∧ out = [] := by
  refine accepts_readLongLong.andThen ?_
  rintro _ _ size ⟨rfl, rfl, -⟩
  refine (accepts_readStorePaths size []).mono fun _ _ _ hpaths hnil => ?_
  obtain ⟨rfl, rfl, rfl⟩ := hpaths hnil
  exact ⟨List.append_nil _, rfl⟩

variable [Sha256]

/-- The info of an archive. -/
def infoOf (path : StorePath) (saved : Bytes) : ValidPathInfo :=
  { path, narHash := hashString saved, references := [], registrationTime := 0,
    narSize := saved.length, ca := none }

/-- The bytes that are read as a record: an archive that hashes to the path that is named after it,
or the end mark. -/
inductive Written (cfg : StoreDirConfig) : Bytes → Option (ValidPathInfo × Bytes) → Prop
  | stop : Written cfg (littleEndian 0) none
  | record {saved s : Bytes} {path : StorePath} (hsaved : Delimited saved) (hlength : s.length < 2 ^ 64)
      (hs : cfg.parseStorePath s = .ok path)
      (hpath : cfg.makeContentAddressedPath path.name (hashString saved) = .ok path) :
      Written cfg (littleEndian 1 ++ (saved ++ (littleEndian exportMagic ++
        (encodeString s ++ littleEndian 0)))) (some (infoOf path saved, saved))

/-- Nothing but a record is accepted: nothing is handed on that is not the content of the path it
claims. -/
theorem accepts_readRecord : Accepts (readRecord cfg reads : Reader ω _) fun bs _ r =>
    Written cfg bs r := by
  refine accepts_readLongLong.andThen ?_
  rintro _ _ n ⟨rfl, rfl, -⟩
  split
  case isTrue hzero =>
    obtain rfl := hzero
    refine (Accepts.pure none).mono ?_
    rintro _ _ _ ⟨rfl, -, rfl⟩
    rw [List.append_nil]
    exact .stop
  case isFalse =>
    refine Accepts.check fun hone => accepts_saving.andThen ?_
    obtain rfl := not_not.mp hone
    rintro saved _ _ ⟨rfl, rfl, hdelimited⟩
    refine accepts_readInt.andThen ?_
    rintro _ _ magic ⟨rfl, rfl⟩
    refine Accepts.check fun hmagic => (accepts_readString _).andThen ?_
    obtain rfl := not_not.mp hmagic
    rintro _ _ s ⟨rfl, rfl, -, hlength⟩
    refine (accepts_ofExcept _).andThen ?_
    rintro _ _ path ⟨rfl, rfl, hpath⟩
    refine accepts_readStorePathSet.andThen fun refs out references hread => ?_
    refine (accepts_ofExcept _).andThen ?_
    rintro _ _ expected ⟨rfl, rfl, hexpected⟩
    refine Accepts.check fun heq => Accepts.check fun hreferences => ?_
    obtain rfl := not_not.mp heq
    obtain rfl := not_not.mp hreferences
    obtain ⟨rfl, rfl⟩ := hread rfl
    refine (Accepts.pure _).mono ?_
    rintro _ _ _ ⟨rfl, -, rfl⟩
    rw [List.nil_append, List.nil_append, List.append_nil]
    exact .record hdelimited hlength hpath hexpected

/-- And every record is. -/
theorem Written.readRecord {bs : Bytes} {r : Option (ValidPathInfo × Bytes)} (h : Written cfg bs r) :
    Reads (readRecord cfg reads : Reader ω _) bs [] r := by
  have hmagic : exportMagic < 2 ^ 32 := by norm_num [exportMagic]
  cases h with
  | stop =>
      refine reads_last (reads_readLongLong (n := 0) (by decide)) ?_
      rw [if_pos rfl]
      exact Reads.pure none
  | record hsaved hlength hs hpath =>
      refine reads_then (reads_readLongLong (n := 1) (by decide)) ?_
      rw [if_neg (by decide)]
      refine reads_after (reads_throwIf (by decide) _) ?_
      refine reads_then (reads_saving hsaved) ?_
      refine reads_then (reads_readInt hmagic) (reads_after (reads_throwIf (by simp) _) ?_)
      refine reads_then (reads_readString (by omega) hlength) (reads_after (reads_ofExcept hs) ?_)
      refine reads_last (reads_last (reads_readLongLong (n := 0) (by decide)) (Reads.pure [])) ?_
      refine reads_after (reads_ofExcept hpath) (reads_after (reads_throwIf (by simp) _) ?_)
      exact reads_after (reads_throwIf (by simp) _) (Reads.pure _)

/-- What was written of an intact path is a record. -/
theorem written_record {path : StorePath} {t : Tree} (ht : t.Representable) (hfit : t.FilesFit)
    (hheight : t.height ≤ narMaxDepth)
    (hpath : cfg.makeContentAddressedPath path.name (hashString t.nar) = .ok path)
    (hlength : (cfg.printStorePath path).length < 2 ^ 64) :
    Written cfg (record cfg path t) (some (infoOf path t.nar, t.nar)) :=
  .record (delimited_nar ht hfit hheight) hlength (cfg.parseStorePath_printStorePath path) hpath

/-- What the fields of a record say about the bytes before them. -/
structure Verified (cfg : StoreDirConfig) (info : ValidPathInfo) (saved : Bytes) : Prop where
  delimited : Delimited saved
  narHash : info.narHash = hashString saved
  narSize : info.narSize = saved.length
  references : info.references = []
  ca : info.ca = none
  path : cfg.makeContentAddressedPath info.path.name (hashString saved) = .ok info.path

theorem Written.verified {bs saved : Bytes} {info : ValidPathInfo}
    (h : Written cfg bs (some (info, saved))) : Verified cfg info saved := by
  cases h with
  | record hsaved _ _ hpath => exact ⟨hsaved, rfl, rfl, rfl, rfl, hpath⟩

theorem Written.length {bs : Bytes} {r : Option (ValidPathInfo × Bytes)} (h : Written cfg bs r) :
    8 ≤ bs.length := by
  cases h with
  | stop => rw [littleEndian_length]
  | record =>
      rw [List.length_append, littleEndian_length]
      omega

/-- The saved bytes are one archive, if an archive is what they begin with. -/
theorem Verified.nar_eq {info : ValidPathInfo} {saved rest : Bytes} {t : Tree}
    (h : Verified cfg info saved) (ht : t.Representable) (hsaved : saved = t.nar ++ rest) :
    saved = t.nar :=
  h.delimited.nar_eq ht hsaved

end Reading

end Exporting
end Store
end Archinix
