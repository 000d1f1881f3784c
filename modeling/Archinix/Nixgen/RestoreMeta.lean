import Archinix.Foundation.TextTable
import Archinix.Host.FileSystem

/-!
# Metadata manifests

`nixgen-savemeta` writes the modes and owners the store's canonicalisation takes
away to `etc/nixgen/perms`, and `nixgen-restmeta` replays them: one pass of `chmod`
for each mode, one of `chown` for each owner, then the ACLs.  A change of owner takes
the setuid and setgid bits of a file away, after they have been set.

`restmeta_restores_iff` says for which trees the replay gives every recorded path
its recorded owner and bits.
-/

namespace Archinix
namespace Nixgen

open Foundation Foundation.TextTable Util Host

inductive NodeType where
  | directory
  | regular
  | symlink
  deriving DecidableEq

/-- `find -printf '%y'`. -/
def NodeType.letter : NodeType → Bytes
  | directory => str "d"
  | regular => str "f"
  | symlink => str "l"

/-- Permission bits and owner. -/
structure Metadata where
  mode : Mode
  uid : Nat
  gid : Nat
  deriving DecidableEq

/-- A path as `find .` prints it and the node there. -/
structure Entry where
  path : Bytes
  type : NodeType
  metadata : Metadata
  /-- It has more than the base ACL entries, and `getfacl -s` prints it. -/
  acl : Bool
  deriving DecidableEq

def tab : UInt8 := 9

def newline : UInt8 := 10

/-- The nodes of a tree but its root: each path once, none with a tab or a newline. -/
structure FileList where
  entries : List Entry
  path_unique : (entries.map (·.path)).Nodup
  path_plain : ∀ e ∈ entries, tab ∉ e.path ∧ newline ∉ e.path

/-- `find -path 'dir*'` for a `dir` that ends with a slash. -/
def under (dir : String) (path : Bytes) : Bool := (str dir).isPrefixOf path

def setuid : Mode := 0o4000

def setgid : Mode := 0o2000

def groupExec : Mode := 0o010

/-! ## Capture -/

/-- The predicate of the `find` that writes `perms`. -/
def captured (e : Entry) : Bool :=
  let m := e.metadata
  !(under "./tmp/" e.path || under "./var/tmp/" e.path) &&
    !(tab ∈ e.path || newline ∈ e.path) &&
    e.path ≠ str "./nixstore" && e.path ≠ str "./nixstoredev" &&
    match e.type with
    | .directory => !(m.mode = 0o755 && m.uid = 0 && m.gid = 0)
    | .regular => m.mode &&& 0o7022 ≠ 0 || m.mode &&& 0o444 ≠ 0o444 || m.uid ≠ 0 || m.gid ≠ 0 ||
        (under "./etc/" e.path && !under "./etc/nixgen/" e.path) || under "./root/" e.path
    | .symlink => !(m.uid = 0 && m.gid = 0)

/-- `-printf '%y\t%m\t%U\t%G\t%p\n'`, without the newline. -/
def row (e : Entry) : Bytes :=
  [tab].intercalate [e.type.letter, numeral 8 e.metadata.mode.toNat, numeral 10 e.metadata.uid,
    numeral 10 e.metadata.gid, e.path]

/-- What `find | sort` writes: the rows in the order of their paths. -/
def sortedRows (entries : List Entry) : Bytes :=
  unlines newline (((entries.filter captured).mergeSort fun e e' => e.path ≤ e'.path).map row)

/-- `etc/nixgen/perms`. -/
def perms (t : FileList) : Bytes := sortedRows t.entries

/-- `etc/nixgen/acls`: the paths `getfacl` is asked about and prints, with the owner,
flags and base entries its output begins with. -/
def acls (t : FileList) : List (Bytes × Metadata) :=
  (t.entries.filter fun e => e.acl && e.type ≠ .symlink &&
    !(e.path = str "./var/log/journal" || under "./var/log/journal/" e.path)).map
      fun e => (e.path, e.metadata)

/-- What the store makes of the tree: everything owned by root, directories 0755, files
0555 or 0444 by their owner's execute bit, no ACLs. -/
def canonicalise (e : Entry) : Entry :=
  { e with
    acl := false
    metadata := ⟨match e.type with
      | .directory => 0o755
      | .regular => if e.metadata.mode &&& 0o100 ≠ 0 then 0o555 else 0o444
      | .symlink => e.metadata.mode, 0, 0⟩ }

/-! ## Replay -/

/-- A command for one path. -/
inductive Command where
  /-- `chmod` with a numeric mode. -/
  | chmod (mode : Mode)
  /-- `chown -h`. -/
  | chown (uid gid : Nat)
  /-- One block of `setfacl --restore`, with its `owner`, `group` and `flags` comments. -/
  | setfacl (metadata : Metadata)

namespace Command

/-- `chmod` leaves the set-user-ID and set-group-ID bits of a directory alone unless the
mode has them; `chown` clears them on a file, the latter if the group may execute it. -/
def apply (c : Command) (type : NodeType) (m : Metadata) : Metadata :=
  match c, type with
  | chmod mode, .directory => { m with mode := mode ||| (m.mode &&& (setuid ||| setgid)) }
  | chmod mode, _ => { m with mode := mode }
  | chown uid gid, .directory => { m with uid := uid, gid := gid }
  | chown uid gid, _ =>
      ⟨m.mode &&& ~~~(if m.mode &&& groupExec ≠ 0 then setuid ||| setgid else setuid), uid, gid⟩
  | setfacl metadata, _ => metadata

end Command

/-- Run a command on a path. -/
def runAt (entries : List Entry) (path : Bytes) (c : Command) : List Entry :=
  entries.map fun e =>
    if e.path = path then { e with metadata := c.apply e.type e.metadata } else e

/-- `xargs`: one command on every path. -/
def xargs (paths : List Bytes) (c : Command) (entries : List Entry) : List Entry :=
  paths.foldl (fun es path => runAt es path c) entries

/-- `sort -u`. -/
def sortUnique (ls : List Bytes) : List Bytes := (ls.mergeSort (· ≤ ·)).dedup

/-- `$n` of `awk`; a field that is not there is empty. -/
def field (n : Nat) (line : List Bytes) : Bytes := line.getD (n - 1) []

/-- `awk -F'\t'` on `perms`. -/
def awkRows (text : Bytes) : List (List Bytes) := (lines newline text).map (fields tab)

/-- The loop over the modes. -/
def replayModes (rows : List (List Bytes)) (entries : List Entry) : List Entry :=
  let modes := sortUnique ((rows.filter fun r => field 1 r ≠ str "l").map (field 2))
  modes.foldl (fun es mode =>
    let paths := (rows.filter fun r => field 1 r ≠ str "l" && field 2 r = mode).map (field 5)
    xargs paths (.chmod (BitVec.ofNat 12 (readNumeral 8 mode))) es) entries

/-- `$3 ":" $4`. -/
def owner (r : List Bytes) : Bytes := field 3 r ++ str ":" ++ field 4 r

/-- The loop over the owners; `split(o, a, ":")`. -/
def replayOwners (rows : List (List Bytes)) (entries : List Entry) : List Entry :=
  let owners := sortUnique ((rows.filter fun r =>
    field 3 r ≠ str "0" || field 4 r ≠ str "0").map owner)
  owners.foldl (fun es own =>
    let a := own.splitOn 58
    let paths := (rows.filter fun r => field 3 r = field 1 a && field 4 r = field 2 a).map (field 5)
    xargs paths (.chown (readNumeral 10 (field 1 a)) (readNumeral 10 (field 2 a))) es) entries

/-- `setfacl -P --restore`. -/
def replayAcls (blocks : List (Bytes × Metadata)) (entries : List Entry) : List Entry :=
  blocks.foldl (fun es block => runAt es block.1 (.setfacl block.2)) entries

/-- `nixgen-restmeta`, as far as modes and owners go. -/
def restmeta (perms : Bytes) (acls : List (Bytes × Metadata)) (entries : List Entry) :
    List Entry :=
  let rows := awkRows perms
  replayAcls acls (replayOwners rows (replayModes rows entries))

/-! ## Reading the manifest back -/

section Rows

variable {t : FileList} {e e' : Entry} {r : List Bytes}

/-- The fields of a path's row. -/
def rowFields (e : Entry) : List Bytes :=
  [e.type.letter, numeral 8 e.metadata.mode.toNat, numeral 10 e.metadata.uid,
    numeral 10 e.metadata.gid, e.path]

theorem not_mem_rowFields {c : UInt8} (hc : c = tab ∨ c = newline) (hpath : c ∉ e.path) :
    ∀ f ∈ rowFields e, c ∉ f := by
  have hletter : c ∉ e.type.letter := by
    rcases hc with rfl | rfl <;> cases e.type <;> decide
  have hdigit : c.toNat < 48 ∨ 57 < c.toNat := by
    rcases hc with rfl | rfl <;> exact Or.inl (by decide)
  have hoctal := not_mem_numeral (by decide : 1 < 8) (by decide) e.metadata.mode.toNat hdigit
  have huid := not_mem_numeral (by decide : 1 < 10) (le_refl _) e.metadata.uid hdigit
  have hgid := not_mem_numeral (by decide : 1 < 10) (le_refl _) e.metadata.gid hdigit
  simp [rowFields, hletter, hoctal, huid, hgid, hpath]

theorem mem_awkRows (t : FileList) :
    r ∈ awkRows (perms t) ↔ ∃ e ∈ t.entries, captured e = true ∧ r = rowFields e := by
  have hrows : awkRows (perms t) =
      ((t.entries.filter captured).mergeSort fun e e' => e.path ≤ e'.path).map rowFields := by
    have hmem : ∀ e ∈ (t.entries.filter captured).mergeSort fun e e' => e.path ≤ e'.path,
        tab ∉ e.path ∧ newline ∉ e.path := fun e he =>
      t.path_plain e (List.mem_filter.mp (List.mem_mergeSort.mp he)).1
    rw [awkRows, perms, sortedRows, lines_unlines, List.map_map]
    · refine List.map_congr_left fun e he => ?_
      exact fields_intercalate (by simp)
        (not_mem_rowFields (Or.inl rfl) (hmem e he).1)
    · intro l hl
      obtain ⟨e, he, rfl⟩ := List.mem_map.mp hl
      exact not_mem_intercalate (by decide) (not_mem_rowFields (Or.inr rfl) (hmem e he).2)
  rw [hrows]
  simp only [List.mem_map, List.mem_mergeSort, List.mem_filter, and_assoc, eq_comm]

theorem mem_sortUnique {l : List Bytes} {b : Bytes} : b ∈ sortUnique l ↔ b ∈ l := by
  simp [sortUnique]

theorem field_rowFields : field 1 (rowFields e) = e.type.letter ∧
    field 2 (rowFields e) = numeral 8 e.metadata.mode.toNat ∧
    field 3 (rowFields e) = numeral 10 e.metadata.uid ∧
    field 4 (rowFields e) = numeral 10 e.metadata.gid ∧ field 5 (rowFields e) = e.path :=
  ⟨rfl, rfl, rfl, rfl, rfl⟩

theorem letter_symlink {type : NodeType} : type.letter = str "l" ↔ type = .symlink := by
  cases type <;> decide

theorem numeral_zero {n : Nat} : numeral 10 n = str "0" ↔ n = 0 := by
  constructor
  · intro h
    exact numeral_injective (by decide : 1 < 10) (le_refl _) (h.trans rfl)
  · rintro rfl
    rfl

/-- `split(o, a, ":")` gives the two numbers back. -/
theorem splitOn_owner : (owner (rowFields e)).splitOn 58 =
    [numeral 10 e.metadata.uid, numeral 10 e.metadata.gid] := by
  have hcolon : ∀ n, (58 : UInt8) ∉ numeral 10 n := fun n =>
    not_mem_numeral (by decide) (le_refl _) n (Or.inr (by decide))
  rw [owner, field_rowFields.2.2.1, field_rowFields.2.2.2.1, List.append_assoc,
    show str ":" = [58] from rfl, List.singleton_append,
    List.splitOn_append_cons_self_of_not_mem (hcolon _), List.splitOn_eq_singleton (hcolon _)]

/-- A path has one entry. -/
theorem FileList.eq_of_path (he : e ∈ t.entries) (he' : e' ∈ t.entries) (h : e.path = e'.path) :
    e = e' :=
  List.inj_on_of_nodup_map t.path_unique he he' h

end Rows

/-! ## Running commands -/

section Commands

variable {cmds cmds' : List (Bytes × Command)} {entries : List Entry} {path : Bytes}
  {type : NodeType} {m : Metadata} {c : Command}

/-- Run commands one after the other. -/
def runAll (cmds : List (Bytes × Command)) (entries : List Entry) : List Entry :=
  cmds.foldl (fun es c => runAt es c.1 c.2) entries

/-- What they make of the metadata of one path. -/
def effect (cmds : List (Bytes × Command)) (path : Bytes) (type : NodeType) (m : Metadata) :
    Metadata :=
  cmds.foldl (fun m c => if path = c.1 then c.2.apply type m else m) m

theorem runAll_eq (entries : List Entry) : runAll cmds entries =
    entries.map fun e => { e with metadata := effect cmds e.path e.type e.metadata } := by
  induction cmds generalizing entries with
  | nil => simp [runAll, effect]
  | cons c cmds ih =>
      rw [runAll, List.foldl_cons]
      refine (ih (runAt entries c.1 c.2)).trans ?_
      rw [runAt, List.map_map]
      refine List.map_congr_left fun e _ => ?_
      by_cases h : e.path = c.1 <;> simp [effect, h]

/-- Commands for a path that are all the same, and change nothing the second time. -/
theorem effect_same (hall : ∀ x ∈ cmds, x.1 = path → x.2 = c)
    (hidem : c.apply type (c.apply type m) = c.apply type m) :
    ((∃ x ∈ cmds, x.1 = path) → effect cmds path type m = c.apply type m) ∧
    ((∀ x ∈ cmds, x.1 ≠ path) → effect cmds path type m = m) := by
  have hfixed : ∀ cmds : List (Bytes × Command), (∀ x ∈ cmds, x.1 = path → x.2 = c) →
      effect cmds path type (c.apply type m) = c.apply type m := by
    intro cmds hall
    induction cmds with
    | nil => rfl
    | cons x cmds ih =>
        have hrest := ih fun y hy => hall y (List.mem_cons_of_mem _ hy)
        by_cases hx : path = x.1
        · rw [effect, List.foldl_cons, if_pos hx, hall x (by simp) hx.symm, hidem]
          exact hrest
        · rw [effect, List.foldl_cons, if_neg hx]
          exact hrest
  induction cmds with
  | nil => simp [effect]
  | cons x cmds ih =>
      have hrest := fun y hy => hall y (List.mem_cons_of_mem x hy)
      by_cases hx : path = x.1
      · refine ⟨fun _ => ?_, fun hnone => absurd hx.symm (hnone x (by simp))⟩
        rw [effect, List.foldl_cons, if_pos hx, hall x (by simp) hx.symm]
        exact hfixed cmds hrest
      · obtain ⟨hsome, hnone⟩ := ih hrest
        rw [effect, List.foldl_cons, if_neg hx]
        refine ⟨fun ⟨y, hy, hpath⟩ => hsome ⟨y, ?_, hpath⟩, fun h =>
          hnone fun y hy => h y (List.mem_cons_of_mem _ hy)⟩
        rcases List.mem_cons.mp hy with rfl | hy
        · exact absurd hpath.symm hx
        · exact hy

end Commands

/-! ## The three passes -/

section Passes

variable {t : FileList} {e : Entry} {x : Bytes × Command}

def modeCommands (rows : List (List Bytes)) : List (Bytes × Command) :=
  (sortUnique ((rows.filter fun r => field 1 r ≠ str "l").map (field 2))).flatMap fun mode =>
    ((rows.filter fun r => field 1 r ≠ str "l" && field 2 r = mode).map (field 5)).map
      fun path => (path, .chmod (BitVec.ofNat 12 (readNumeral 8 mode)))

def ownerCommands (rows : List (List Bytes)) : List (Bytes × Command) :=
  (sortUnique ((rows.filter fun r => field 3 r ≠ str "0" || field 4 r ≠ str "0").map owner)).flatMap
    fun own =>
      let a := own.splitOn 58
      ((rows.filter fun r => field 3 r = field 1 a && field 4 r = field 2 a).map (field 5)).map
        fun path => (path, .chown (readNumeral 10 (field 1 a)) (readNumeral 10 (field 2 a)))

theorem replayModes_eq (rows : List (List Bytes)) (entries : List Entry) :
    replayModes rows entries = runAll (modeCommands rows) entries := by
  simp only [replayModes, modeCommands, runAll, List.foldl_flatMap, xargs, List.foldl_map]

theorem replayOwners_eq (rows : List (List Bytes)) (entries : List Entry) :
    replayOwners rows entries = runAll (ownerCommands rows) entries := by
  simp only [replayOwners, ownerCommands, runAll, List.foldl_flatMap, xargs, List.foldl_map]

theorem replayAcls_eq (blocks : List (Bytes × Metadata)) (entries : List Entry) :
    replayAcls blocks entries = runAll (blocks.map fun b => (b.1, .setfacl b.2)) entries := by
  simp only [replayAcls, runAll, List.foldl_map]

/-- The first pass sets the mode of every captured file and directory. -/
theorem mem_modeCommands : x ∈ modeCommands (awkRows (perms t)) ↔
    ∃ e ∈ t.entries, captured e = true ∧ e.type ≠ .symlink ∧
      x = (e.path, .chmod e.metadata.mode) := by
  simp only [modeCommands, List.mem_flatMap, mem_sortUnique, List.mem_map, List.mem_filter,
    mem_awkRows, Bool.and_eq_true, decide_eq_true_eq]
  have hmode : ∀ m : Mode, BitVec.ofNat 12 (readNumeral 8 (numeral 8 m.toNat)) = m := fun m => by
    rw [readNumeral_numeral (by decide) (by decide)]
    simp
  constructor
  · rintro ⟨_, -, _, ⟨_, ⟨⟨e, he, hcap, rfl⟩, htype, rfl⟩, rfl⟩, rfl⟩
    refine ⟨e, he, hcap, fun h => htype (letter_symlink.mpr h), ?_⟩
    rw [field_rowFields.2.1, hmode]
    rfl
  · rintro ⟨e, he, hcap, htype, rfl⟩
    have hletter : field 1 (rowFields e) ≠ str "l" := fun h => htype (letter_symlink.mp h)
    refine ⟨field 2 (rowFields e), ⟨_, ⟨⟨e, he, hcap, rfl⟩, hletter⟩, rfl⟩,
      _, ⟨_, ⟨⟨e, he, hcap, rfl⟩, hletter, rfl⟩, rfl⟩, ?_⟩
    rw [field_rowFields.2.1, hmode]
    rfl

/-- The second pass sets the owner of every captured path that is not root's. -/
theorem mem_ownerCommands : x ∈ ownerCommands (awkRows (perms t)) ↔
    ∃ e ∈ t.entries, captured e = true ∧ (e.metadata.uid ≠ 0 ∨ e.metadata.gid ≠ 0) ∧
      x = (e.path, .chown e.metadata.uid e.metadata.gid) := by
  have hread : ∀ n, readNumeral 10 (numeral 10 n) = n := readNumeral_numeral (by decide) (le_refl _)
  have hfields : ∀ e : Entry, field 1 ((owner (rowFields e)).splitOn 58) =
      numeral 10 e.metadata.uid ∧ field 2 ((owner (rowFields e)).splitOn 58) =
      numeral 10 e.metadata.gid := fun e => by
    rw [splitOn_owner]
    exact ⟨rfl, rfl⟩
  have hinj := numeral_injective (by decide : 1 < 10) (le_refl _)
  simp only [ownerCommands, List.mem_flatMap, mem_sortUnique, List.mem_map, List.mem_filter,
    mem_awkRows, Bool.and_eq_true, Bool.or_eq_true, decide_eq_true_eq]
  constructor
  · rintro ⟨_, ⟨_, ⟨⟨e₀, -, -, rfl⟩, hroot⟩, rfl⟩, _, ⟨_, ⟨⟨e, he, hcap, rfl⟩, huid, hgid⟩, rfl⟩, rfl⟩
    rw [(hfields e₀).1, field_rowFields.2.2.1] at huid
    rw [(hfields e₀).2, field_rowFields.2.2.2.1] at hgid
    rw [(hfields e₀).1, (hfields e₀).2, ← huid, ← hgid, hread, hread]
    rw [field_rowFields.2.2.1, field_rowFields.2.2.2.1, ← huid, ← hgid, ne_eq, numeral_zero,
      ne_eq, numeral_zero] at hroot
    exact ⟨e, he, hcap, hroot, rfl⟩
  · rintro ⟨e, he, hcap, hroot, rfl⟩
    refine ⟨owner (rowFields e), ⟨_, ⟨⟨e, he, hcap, rfl⟩, ?_⟩, rfl⟩,
      _, ⟨_, ⟨⟨e, he, hcap, rfl⟩, (hfields e).1.symm, (hfields e).2.symm⟩, rfl⟩, ?_⟩
    · rwa [field_rowFields.2.2.1, field_rowFields.2.2.2.1, ne_eq, numeral_zero, ne_eq, numeral_zero]
    · rw [(hfields e).1, (hfields e).2, hread, hread]
      rfl

/-- `getfacl` printed the path. -/
def AclCaptured (e : Entry) : Prop :=
  e.acl = true ∧ e.type ≠ .symlink ∧ e.path ≠ str "./var/log/journal" ∧
    under "./var/log/journal/" e.path = false

instance (e : Entry) : Decidable (AclCaptured e) := inferInstanceAs (Decidable (_ ∧ _ ∧ _ ∧ _))

theorem mem_aclCommands : x ∈ (acls t).map (fun b => (b.1, Command.setfacl b.2)) ↔
    ∃ e ∈ t.entries, AclCaptured e ∧ x = (e.path, .setfacl e.metadata) := by
  simp only [acls, List.mem_map, List.mem_filter, Bool.and_eq_true, Bool.not_eq_true',
    Bool.or_eq_false_iff, decide_eq_true_eq, decide_eq_false_iff_not, AclCaptured]
  constructor
  · rintro ⟨_, ⟨e, ⟨he, ⟨hacl, htype⟩, hpath⟩, rfl⟩, rfl⟩
    exact ⟨e, he, ⟨hacl, htype, hpath⟩, rfl⟩
  · rintro ⟨e, he, ⟨hacl, htype, hpath⟩, rfl⟩
    exact ⟨_, ⟨e, ⟨he, ⟨hacl, htype⟩, hpath⟩, rfl⟩, rfl⟩

end Passes

/-! ## What the replay leaves -/

section Replay

variable {t : FileList} {e : Entry}

/-- The bits `chown` takes from a file. -/
def killed (mode : Mode) : Mode := if mode &&& groupExec ≠ 0 then setuid ||| setgid else setuid

theorem and_not_eq_self {a k : Mode} : a &&& ~~~k = a ↔ a &&& k = 0 := by
  constructor
  · intro h
    rw [← h, BitVec.and_assoc]
    simp
  · intro h
    ext i hi
    have hbit := congrArg (fun x : Mode => x[i]) h
    simp only [BitVec.getElem_and, BitVec.getElem_not] at hbit ⊢
    cases ha : a[i] with
    | false => rfl
    | true => simpa [ha] using hbit

/-- Doing the same again changes nothing. -/
theorem Command.apply_idem (c : Command) (type : NodeType) (m : Metadata) :
    c.apply type (c.apply type m) = c.apply type m := by
  have hchown : ∀ mode : Mode, (mode &&& ~~~killed mode) &&& ~~~killed (mode &&& ~~~killed mode) =
      mode &&& ~~~killed mode := by
    intro mode
    have hexec : (mode &&& ~~~killed mode) &&& groupExec = mode &&& groupExec := by
      have hkeep : ~~~killed mode &&& groupExec = groupExec := by
        unfold killed
        split <;> decide
      rw [BitVec.and_assoc, hkeep]
    have hkilled : killed (mode &&& ~~~killed mode) = killed mode := by
      rw [killed, hexec, killed]
    rw [hkilled, BitVec.and_assoc, BitVec.and_self]
  cases c with
  | chmod mode =>
      cases type with
      | directory =>
          simp only [apply, Metadata.mk.injEq, and_true]
          ext i hi
          simp only [BitVec.getElem_or, BitVec.getElem_and]
          cases mode[i] <;> simp
      | regular => rfl
      | symlink => rfl
  | chown uid gid =>
      cases type with
      | directory => rfl
      | regular => exact congrArg (fun mode => (⟨mode, uid, gid⟩ : Metadata)) (hchown m.mode)
      | symlink => exact congrArg (fun mode => (⟨mode, uid, gid⟩ : Metadata)) (hchown m.mode)
  | setfacl metadata => rfl

/-- What becomes of one node. -/
def replayed (e : Entry) : Metadata :=
  let m := (canonicalise e).metadata
  let m := if captured e = true ∧ e.type ≠ .symlink then
      (Command.chmod e.metadata.mode).apply e.type m else m
  let m := if captured e = true ∧ (e.metadata.uid ≠ 0 ∨ e.metadata.gid ≠ 0) then
      (Command.chown e.metadata.uid e.metadata.gid).apply e.type m else m
  if AclCaptured e then e.metadata else m

/-- One pass: it runs `c` on the entry if the entry is among those it is about. -/
theorem effect_pass (cmds : List (Bytes × Command)) (about : Entry → Prop)
    [DecidablePred about] (c : Entry → Command) (he : e ∈ t.entries)
    (hmem : ∀ x, x ∈ cmds ↔ ∃ e ∈ t.entries, about e ∧ x = (e.path, c e)) (m : Metadata) :
    effect cmds e.path e.type m = if about e then (c e).apply e.type m else m := by
  have hall : ∀ x ∈ cmds, x.1 = e.path → x.2 = c e := by
    intro x hx hpath
    obtain ⟨e', he', -, rfl⟩ := (hmem x).mp hx
    rw [t.eq_of_path he' he hpath]
  obtain ⟨hsome, hnone⟩ := effect_same hall ((c e).apply_idem e.type m)
  split
  · rename_i habout
    exact hsome ⟨_, (hmem _).mpr ⟨e, he, habout, rfl⟩, rfl⟩
  · rename_i habout
    refine hnone fun x hx hpath => habout ?_
    obtain ⟨e', he', habout', rfl⟩ := (hmem x).mp hx
    exact t.eq_of_path he' he hpath ▸ habout'

@[simp] theorem canonicalise_path (e : Entry) : (canonicalise e).path = e.path := rfl

@[simp] theorem canonicalise_type (e : Entry) : (canonicalise e).type = e.type := rfl

theorem restmeta_eq (t : FileList) :
    restmeta (perms t) (acls t) (t.entries.map canonicalise) =
      t.entries.map fun e => { canonicalise e with metadata := replayed e } := by
  simp only [restmeta, replayModes_eq, replayOwners_eq, replayAcls_eq, runAll_eq, List.map_map]
  refine List.map_congr_left fun e he => ?_
  have hmodes := effect_pass (modeCommands (awkRows (perms t)))
    (fun e => captured e = true ∧ e.type ≠ .symlink) (fun e => .chmod e.metadata.mode) he
    fun x => by simp only [mem_modeCommands, and_assoc]
  have howners := effect_pass (ownerCommands (awkRows (perms t)))
    (fun e => captured e = true ∧ (e.metadata.uid ≠ 0 ∨ e.metadata.gid ≠ 0))
    (fun e => .chown e.metadata.uid e.metadata.gid) he
    fun x => by simp only [mem_ownerCommands, and_assoc]
  have hacls := effect_pass ((acls t).map fun b => (b.1, .setfacl b.2)) AclCaptured
    (fun e => .setfacl e.metadata) he fun x => mem_aclCommands
  have hreplayed : replayed e = effect ((acls t).map fun b => (b.1, .setfacl b.2)) e.path e.type
      (effect (ownerCommands (awkRows (perms t))) e.path e.type
        (effect (modeCommands (awkRows (perms t))) e.path e.type (canonicalise e).metadata)) := by
    rw [hmodes, howners, hacls]
    rfl
  rw [hreplayed]
  rfl

/-- Every captured path has its recorded owner, and its recorded bits if it is not a
symlink. -/
def Restored (t : FileList) (after : List Entry) : Prop :=
  ∀ e ∈ t.entries, captured e = true → ∃ e' ∈ after, e'.path = e.path ∧ e'.type = e.type ∧
    e'.metadata.uid = e.metadata.uid ∧ e'.metadata.gid = e.metadata.gid ∧
    (e.type ≠ .symlink → e'.metadata.mode = e.metadata.mode)

/-- The replay sets a captured file's recorded bits and keeps them. -/
theorem replayed_mode_regular (hcap : captured e = true) (htype : e.type = .regular)
    (hacl : ¬ AclCaptured e) : (replayed e).mode = e.metadata.mode ↔
      ((e.metadata.uid ≠ 0 ∨ e.metadata.gid ≠ 0) → e.metadata.mode &&& setuid = 0 ∧
        (e.metadata.mode &&& groupExec ≠ 0 → e.metadata.mode &&& setgid = 0)) := by
  by_cases howner : e.metadata.uid ≠ 0 ∨ e.metadata.gid ≠ 0
  · have hmode : (replayed e).mode = e.metadata.mode &&& ~~~killed e.metadata.mode := by
      simp [replayed, hcap, htype, hacl, howner, Command.apply, killed]
    rw [hmode, and_not_eq_self, killed]
    simp only [howner, forall_const]
    split
    · rename_i hexec
      have hor : ∀ a b : Mode, a ||| b = 0 ↔ a = 0 ∧ b = 0 := fun a b => BitVec.or_eq_zero_iff
      rw [BitVec.and_or_distrib_left, hor]
      exact ⟨fun h => ⟨h.1, fun _ => h.2⟩, fun h => ⟨h.1, h.2 hexec⟩⟩
    · rename_i hexec
      simp only [ne_eq, not_not] at hexec
      simp [hexec]
  · simp [replayed, hcap, htype, hacl, howner, Command.apply]

/-- Nothing else can go wrong: the owner, and the mode of a directory. -/
theorem replayed_other (hcap : captured e = true) :
    (replayed e).uid = e.metadata.uid ∧ (replayed e).gid = e.metadata.gid ∧
      (e.type = .directory ∨ AclCaptured e → (replayed e).mode = e.metadata.mode) := by
  by_cases hacl : AclCaptured e
  · simp [replayed, hacl]
  · by_cases howner : e.metadata.uid ≠ 0 ∨ e.metadata.gid ≠ 0
    · cases htype : e.type <;>
        simp [replayed, hcap, htype, hacl, howner, Command.apply, canonicalise, setuid, setgid]
    · simp only [ne_eq, not_or, not_not] at howner
      cases htype : e.type <;>
        simp [replayed, hcap, htype, hacl, howner, Command.apply, canonicalise, setuid, setgid]

/-- The replay restores every recorded owner and mode exactly when no captured file that
is not root's, and whose ACL is not captured, has its setuid bit, or its setgid bit
with the group's execute bit. -/
theorem restmeta_restores_iff (t : FileList) :
    Restored t (restmeta (perms t) (acls t) (t.entries.map canonicalise)) ↔
      ∀ e ∈ t.entries, captured e = true → e.type = .regular → ¬ AclCaptured e →
        (e.metadata.uid ≠ 0 ∨ e.metadata.gid ≠ 0) → e.metadata.mode &&& setuid = 0 ∧
          (e.metadata.mode &&& groupExec ≠ 0 → e.metadata.mode &&& setgid = 0) := by
  rw [restmeta_eq]
  constructor
  · intro hrestored e he hcap htype hacl
    obtain ⟨e', he', hpath, -, -, -, hmode⟩ := hrestored e he hcap
    obtain ⟨e₀, he₀, rfl⟩ := List.mem_map.mp he'
    obtain rfl := t.eq_of_path he₀ he hpath
    exact (replayed_mode_regular hcap htype hacl).mp (hmode (by simp [htype]))
  · intro hsafe e he hcap
    obtain ⟨huid, hgid, hother⟩ := replayed_other hcap
    refine ⟨_, List.mem_map.mpr ⟨e, he, rfl⟩, rfl, rfl, huid, hgid, fun htype => ?_⟩
    by_cases hacl : AclCaptured e
    · exact hother (Or.inr hacl)
    · cases hkind : e.type with
      | directory => exact hother (Or.inl hkind)
      | regular => exact (replayed_mode_regular hcap hkind hacl).mpr (hsafe e he hcap hkind hacl)
      | symlink => exact absurd hkind htype

end Replay

/-- A setgid program of the group `tty`: it comes back without its setgid bit. -/
theorem restmeta_drops_setgid :
    ∃ t : FileList, ¬ Restored t (restmeta (perms t) (acls t) (t.entries.map canonicalise)) := by
  refine ⟨⟨[⟨str "./usr/bin/wall", .regular, ⟨0o2755, 0, 5⟩, false⟩], by decide, by decide⟩, ?_⟩
  rw [restmeta_restores_iff]
  intro h
  have hwall := h _ (List.mem_singleton.mpr rfl) (by decide) rfl (by decide) (by decide)
  exact absurd (hwall.2 (by decide)) (by decide)

end Nixgen
end Archinix
