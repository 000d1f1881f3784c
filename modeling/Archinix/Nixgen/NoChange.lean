import Mathlib.Data.List.DropRight
import Archinix.Nixgen.Overlay
import Archinix.Util.StrainedTree

/-!
# The check for no change

`nixgen-update` runs a command in the merged view and bails out before the import when
the upper layer shows no change.  `Unseen` lists the differences between the merged view
and the generation under it that this scan passes over, and `noChange_iff` says that
there are no others: an empty `CHG` means that the archives are equal exactly when none
of these is there.
-/

namespace Archinix
namespace Nixgen

open Util Host Foundation.TextTable

/-! ## The scan -/

/-- `\( -path ./var/lib/pacman/sync -o -path ./var/log/pacman.log \) -prune`. -/
def ignored (q : Path) : Bool :=
  [str "var", str "lib", str "pacman", str "sync"].isPrefixOf q ||
    [str "var", str "log", str "pacman.log"].isPrefixOf q

/-- A path as `find .` prints it. -/
def printed (q : Path) : Bytes := str "." ++ CanonPath.abs q

/-- `${p#./}`. -/
def rel (p : Bytes) : Bytes := if (str "./").isPrefixOf p then p.drop 2 else p

/-- The output of a command as `$( )` leaves it. -/
def substitute (output : Bytes) : Bytes := output.rdropWhile (· = newline)

/-- The arguments that the shell's `echo` takes for options. -/
def isEchoOption : Bytes → Bool
  | 45 :: c :: cs => (c :: cs).all (· ∈ str "neE")
  | _ => false

def echo (arg : Bytes) : Bytes := if isEchoOption arg then [] else arg ++ [newline]

/-- The upper nodes that `find` prints, in the order in which it comes by. -/
structure Find (U : Layer) where
  order : List Path
  nodup : order.Nodup
  mem_order : ∀ q, q ∈ order ↔
    ∃ n, U.node q = some n ∧ n.isDirectory = false ∧ ignored q = false

def UpperNode.target? : UpperNode → Option Bytes
  | symlink target _ => some target
  | _ => none

def regularContents? : Tree → Option Bytes
  | .regular _ contents => some contents
  | _ => none

def symlinkTarget? : Tree → Option Bytes
  | .symlink target => some target
  | _ => none

/-- No symlink of the generation is on the way to a path. -/
def Generation.Reaches (g : Generation) (q : Path) : Prop :=
  ∀ r, r <+: q → r ≠ q → (g.tree.get? r).bind symlinkTarget? = none

/-- What the tests of the loop are told about a path, by name.  Where a symlink leads is
the host's; all else is found in the layer, the merged view and the generation. -/
structure Lookups (g : Generation) (U : Layer) where
  /-- `-f` in the upper directory. -/
  upperIsFile : Bytes → Bool
  /-- The target in the upper directory, if `-h`. -/
  upperLink : Bytes → Option Bytes
  /-- What `cmp` reads in the merged view. -/
  mntFile : Bytes → Option Bytes
  /-- What `cmp` reads in the generation, if `-f`. -/
  lowerFile : Bytes → Option Bytes
  lowerLink : Bytes → Option Bytes
  upperIsFile_eq : ∀ q n, U.node q = some n → n.target? = none →
    (upperIsFile (printed q) = true ↔ ∃ data metadata, n = .regular data metadata)
  upperLink_eq : ∀ q n, U.node q = some n → upperLink (printed q) = n.target?
  mntFile_eq : ∀ q contents metadata, U.node q ≠ none →
    U.merged g q = some (.regular contents metadata) → mntFile (rel (printed q)) = some contents
  lowerFile_eq : ∀ q, (∀ name ∈ q, ValidName name) → g.Reaches q →
    (g.tree.get? q).bind symlinkTarget? = none →
    lowerFile (rel (printed q)) = (g.tree.get? q).bind regularContents?
  lowerLink_eq : ∀ q, (∀ name ∈ q, ValidName name) → g.Reaches q →
    lowerLink (rel (printed q)) = (g.tree.get? q).bind symlinkTarget?

section Scan

variable {g : Generation} {U : Layer} (lookups : Lookups g U) (find : Find U)

/-- The two tests of the loop: `continue` after either. -/
def unchanged (p : Bytes) : Bool :=
  (lookups.upperIsFile p &&
    match lookups.lowerFile (rel p) with
    | some contents => lookups.mntFile (rel p) = some contents
    | none => false) ||
  match lookups.upperLink p, lookups.lowerLink (rel p) with
  | some target, some target' =>
      substitute (target ++ [newline]) = substitute (target' ++ [newline])
  | _, _ => false

/-- What `while IFS= read -r p` reads. -/
def scanned : List Bytes := lines newline (unlines newline (find.order.map printed))

/-- The line at which the loop breaks. -/
def changedAt : Option Bytes := (scanned find).find? fun p => !unchanged lookups p

/-- `CHG`. -/
def chg : Bytes :=
  substitute (((changedAt lookups find).map fun p => echo (rel p)).getD [])

end Scan

/-! ## What it is for -/

/-- A view is archived as these bytes. -/
def IsArchivedAs (labels : Path → Option Label) (nar : Bytes) : Prop :=
  ∃ t : Tree, t.Representable ∧ t.height ≤ narMaxDepth ∧
    (∀ q, labels q = (t.get? q).map treeLabel) ∧ t.nar = nar

def Generation.label (g : Generation) (q : Path) : Option Label := (g.tree.get? q).map treeLabel

/-- The generation without the paths that are ignored. -/
def Generation.considered (g : Generation) : Tree := g.tree.strain (fun q => !ignored q) []

namespace Layer

variable (g : Generation) (U : Layer)

def label (q : Path) : Option Label := (U.merged g q).bind FileNode.label

/-- A directory that the generation has not got, with nothing but directories in it. -/
def NewEmpty (q : Path) : Prop :=
  g.label q = none ∧ U.label g q = some .directory ∧
    ∀ r, ignored (q ++ r) = false → U.label g (q ++ r) = none ∨ U.label g (q ++ r) = some .directory

open Classical in
/-- The merged view without the paths that are ignored and the new empty directories. -/
noncomputable def considered (q : Path) : Option Label :=
  if ignored q ∨ U.NewEmpty g q then none else U.label g q

/-- The merged view differs from the generation at a path, and not by a new directory. -/
structure Differs (q : Path) : Prop where
  not_ignored : ignored q = false
  label_ne : U.label g q ≠ g.label q
  not_new : ¬ (g.label q = none ∧ U.label g q = some .directory)

end Layer

/-- A difference that the scan passes over. -/
inductive Unseen {g : Generation} {U : Layer} (lookups : Lookups g U) (find : Find U) (q : Path) :
    Prop
  /-- The content of a file is the same; its execute bit is not looked at. -/
  | executable {data : Option Bytes} {metadata : Metadata} {contents : Bytes} {executable : Bool}
      (hupper : U.node q = some (.regular data metadata))
      (hmerged : U.merged g q = some (.regular contents metadata))
      (hlower : g.tree.get? q = some (.regular executable contents))
  /-- The layer has nothing at the path, and a directory above it does not show the lower
  one at its place: it is opaque, or has been renamed. -/
  | below {a r : Path} {lower : Option Path} {metadata : Metadata} (hq : q = a ++ r)
      (hdir : U.node a = some (.directory lower metadata)) (hlower : lower ≠ some a)
      (hnone : U.node q = none)
  /-- A directory in place of something else: directories are not printed. -/
  | replaced {lower : Option Path} {metadata : Metadata}
      (hupper : U.node q = some (.directory lower metadata))
  /-- A symlink in the layer or in the generation, and one of the tests takes the two for
  the same: it leads to a file with these contents, or the targets differ in the newlines
  at their ends. -/
  | linked {n : UpperNode} {t : Tree} (hupper : U.node q = some n) (hlower : g.tree.get? q = some t)
      (hlink : n.target? ≠ none ∨ symlinkTarget? t ≠ none)
      (hunchanged : unchanged lookups (printed q) = true)
  /-- The path has a newline in it, and is read as several. -/
  | newline {n : UpperNode} (hupper : U.node q = some n) (hline : Nixgen.newline ∈ printed q)
  /-- The loop breaks at a line that prints as nothing. -/
  | silent {p : Bytes} (hp : changedAt lookups find = some p) (hsilent : substitute (echo (rel p)) = [])

/-! ## Paths in the layer -/

namespace Layer

variable {g : Generation} {U : Layer} {q a r : Path} {name : Name}

theorem origin_snoc : U.origin (q ++ [name]) =
    match U.node (q ++ [name]) with
    | some (.directory lower _) => lower
    | some _ => none
    | none => (U.origin q).map (· ++ [name]) := by
  have hcur : ∀ (q : Path) st, (q.foldl U.enter st).1 = st.1 ++ q := by
    intro q
    induction q with
    | nil => simp
    | cons n q ih => intro st; rw [List.foldl_cons, ih, enter, List.append_assoc]; rfl
  rw [origin, List.foldl_append, List.foldl_cons, List.foldl_nil, enter, hcur, List.nil_append]
  rfl

/-- At a node of the layer it is the node that says what shows in it. -/
theorem origin_directory {lower : Option Path} {metadata : Metadata}
    (h : U.node q = some (.directory lower metadata)) : U.origin q = lower := by
  rcases List.eq_nil_or_concat q with rfl | ⟨q, name, rfl⟩
  · obtain ⟨metadata', hroot⟩ := U.root
    rw [h] at hroot
    cases hroot
    rfl
  · rw [List.concat_eq_append] at h ⊢
    rw [origin_snoc, h]

theorem origin_leaf {n : UpperNode} (h : U.node q = some n) (hn : n.isDirectory = false) :
    U.origin q = none := by
  rcases List.eq_nil_or_concat q with rfl | ⟨q, name, rfl⟩
  · obtain ⟨metadata', hroot⟩ := U.root
    rw [h] at hroot
    cases hroot
    cases hn
  · rw [List.concat_eq_append] at h ⊢
    rw [origin_snoc, h]
    cases n <;> first | rfl | cases hn

/-- Every path has a last node of the layer above it, and from there the lower path that
shows is followed by name. -/
theorem exists_above (U : Layer) (q : Path) : ∃ a r n, q = a ++ r ∧ U.node a = some n ∧
    U.origin q = (U.origin a).map (· ++ r) ∧ (r ≠ [] → U.node q = none) := by
  induction q using List.reverseRecOn with
  | nil =>
      obtain ⟨metadata, hroot⟩ := U.root
      exact ⟨[], [], _, rfl, hroot, by simp, fun h => absurd rfl h⟩
  | append_singleton q name ih =>
      cases hnode : U.node (q ++ [name]) with
      | some n => exact ⟨q ++ [name], [], n, by simp, hnode, by simp, fun h => absurd rfl h⟩
      | none =>
          obtain ⟨a, r, n, rfl, ha, horigin, -⟩ := ih
          refine ⟨a, r ++ [name], n, List.append_assoc _ _ _, ha, ?_, fun _ => rfl⟩
          rw [origin_snoc, hnode]
          show (U.origin (a ++ r)).map (· ++ [name]) = _
          rw [horigin, Option.map_map]
          congr 1
          funext lower
          exact List.append_assoc _ _ _

/-- Above a node of the layer there are directories of the layer. -/
theorem isDir_above {n : UpperNode} (h : U.node (q ++ r) = some n) (hr : r ≠ []) : U.IsDir q := by
  induction r using List.reverseRecOn generalizing n with
  | nil => exact absurd rfl hr
  | append_singleton r name ih =>
      rw [← List.append_assoc] at h
      obtain ⟨lower, metadata, hdir⟩ := U.parent_dir (q ++ r) name (by rw [h]; exact nofun)
      rcases eq_or_ne r [] with rfl | hne
      · rw [List.append_nil] at hdir
        exact ⟨lower, metadata, hdir⟩
      · exact ih hdir hne

theorem merged_directory {lower : Option Path} {metadata : Metadata}
    (h : U.node q = some (.directory lower metadata)) : U.label g q = some .directory := by
  rw [label, merged, h]
  rfl

/-- What is not a directory in the layer is none in the merged view. -/
theorem label_ne_directory {n : UpperNode} (h : U.node q = some n) (hn : n.isDirectory = false) :
    U.label g q ≠ some .directory := by
  rw [label, merged, h]
  cases n with
  | whiteout => exact nofun
  | directory lower metadata => cases hn
  | regular data metadata =>
      cases data with
      | some data => exact nofun
      | none =>
          show (shown _ _).bind _ ≠ _
          unfold shown
          dsimp only
          split <;> exact nofun
  | symlink target metadata => exact nofun
  | special type metadata => cases type <;> exact nofun

end Layer

namespace Generation

variable {g : Generation} {q r : Path}

theorem label_bind (g : Generation) (q : Path) : (g.node q).bind FileNode.label = g.label q := by
  rw [node, label]
  cases g.tree.get? q with
  | none => rfl
  | some t => exact label_storeNode t

theorem label_below (h : g.label (q ++ r) ≠ none) (hr : r ≠ []) : g.label q = some .directory := by
  rw [label, Tree.get?_append] at h
  rw [label]
  cases ht : g.tree.get? q with
  | none => simp [ht] at h
  | some t =>
      rw [ht, Option.bind_some] at h
      obtain ⟨name, rest, rfl⟩ := List.exists_cons_of_ne_nil hr
      cases t with
      | directory entries => rfl
      | regular executable contents => exact absurd rfl h
      | symlink target => exact absurd rfl h

theorem label_considered (g : Generation) (q : Path) :
    (g.considered.get? q).map treeLabel = if ignored q then none else g.label q := by
  have hclosed : ∀ r s, (!ignored (r ++ s)) = true → (!ignored r) = true := by
    intro r s h
    simp only [ignored, Bool.not_eq_true', Bool.or_eq_false_iff] at h ⊢
    simp only [← Bool.not_eq_true, List.isPrefixOf_iff_prefix] at h ⊢
    exact ⟨fun hr => h.1 (hr.trans (List.prefix_append _ _)),
      fun hr => h.2 (hr.trans (List.prefix_append _ _))⟩
  rw [considered, Tree.get?_strain hclosed (by decide), List.nil_append, label]
  cases ignored q with
  | true => rfl
  | false =>
      show ((g.tree.get? q).map _).map _ = _
      rw [Option.map_map]
      congr 1
      funext t
      exact Tree.treeLabel_strain t

end Generation

theorem ignored_append {q r : Path} (h : ignored q = true) : ignored (q ++ r) = true := by
  simp only [ignored, Bool.or_eq_true, List.isPrefixOf_iff_prefix] at h ⊢
  exact h.imp (·.trans (List.prefix_append _ _)) (·.trans (List.prefix_append _ _))

/-! ## Differences -/

namespace Layer

variable {g : Generation} {U : Layer} {q r : Path}

theorem considered_eq_iff (g : Generation) (U : Layer) :
    (∀ q, U.considered g q = (g.considered.get? q).map treeLabel) ↔ ∀ q, ¬ U.Differs g q := by
  simp only [Generation.label_considered, considered]
  constructor
  · intro h q hdiffers
    have hq := h q
    rw [if_neg, if_neg (by simp [hdiffers.not_ignored])] at hq
    · exact hdiffers.label_ne hq
    · rintro (hignored | hnew)
      · simp [hdiffers.not_ignored] at hignored
      · exact hdiffers.not_new ⟨hnew.1, hnew.2.1⟩
  · intro h q
    cases hignored : ignored q with
    | true => simp
    | false =>
        have hq : ¬ U.Differs g q := h q
        by_cases hnew : U.NewEmpty g q
        · rw [if_pos (Or.inr hnew), if_neg (by simp), hnew.1]
        · rw [if_neg (by simp [hnew]), if_neg (by simp)]
          by_contra hne
          refine hq ⟨hignored, hne, fun ⟨hlower, hdir⟩ => hnew ⟨hlower, hdir, fun r hr => ?_⟩⟩
          -- nothing of the generation is below, so what the merged view has there is new
          have hbelow : g.label (q ++ r) = none := by
            rcases eq_or_ne r [] with rfl | hne
            · rw [List.append_nil, hlower]
            · by_contra hsome
              rw [Generation.label_below hsome hne] at hlower
              cases hlower
          by_contra hor
          rw [not_or] at hor
          exact h (q ++ r) ⟨hr, by rw [hbelow]; exact hor.1, fun h => hor.2 h.2⟩

end Layer

/-- The archives are equal when there are no differences. -/
theorem isArchivedAs_iff (g : Generation) (U : Layer) :
    IsArchivedAs (U.considered g) g.considered.nar ↔ ∀ q, ¬ U.Differs g q := by
  rw [← Layer.considered_eq_iff]
  have hrep : g.considered.Representable := Tree.strain_representable g.representable
  have hheight : g.considered.height ≤ narMaxDepth := (Tree.height_strain_le _).trans g.height
  constructor
  · rintro ⟨t, htrep, htheight, hlabels, hnar⟩
    rwa [nar_injective htrep hrep htheight hheight hnar] at hlabels
  · intro h
    exact ⟨_, hrep, hheight, h, rfl⟩

/-! ## What the scan tells -/

section Seen

variable {g : Generation} {U : Layer} {lookups : Lookups g U} {find : Find U} {q : Path}

theorem chg_eq_nil_iff :
    chg lookups find = [] ↔ ∀ p, changedAt lookups find = some p → substitute (echo (rel p)) = [] := by
  unfold chg
  cases changedAt lookups find with
  | none => simp [substitute]
  | some p => simp

/-- An upper node that is no directory passes for unchanged if the loop breaks nowhere. -/
theorem unchanged_of_leaf {n : UpperNode} (hn : U.node q = some n) (hleaf : n.isDirectory = false)
    (hignored : ignored q = false) (hline : newline ∉ printed q)
    (hnone : changedAt lookups find = none) : unchanged lookups (printed q) = true := by
  have hmem : q ∈ find.order := (find.mem_order q).mpr ⟨n, hn, hleaf, hignored⟩
  have hscanned : printed q ∈ scanned find := mem_lines_unlines (List.mem_map_of_mem hmem) hline
  simpa using List.find?_eq_none.mp hnone _ hscanned

/-- A symlink of the generation on the way to an upper node has a directory in its place. -/
theorem unseen_of_symlink_above {n : UpperNode} (hn : U.node q = some n)
    (hignored : ignored q = false) (hreach : ¬ g.Reaches q) :
    ∃ r, U.Differs g r ∧ Unseen lookups find r := by
  simp only [Generation.Reaches, not_forall] at hreach
  obtain ⟨r, ⟨s, rfl⟩, hne, hlink⟩ := hreach
  have hs : s ≠ [] := by
    rintro rfl
    exact hne (List.append_nil r).symm
  obtain ⟨lower, metadata, hdir⟩ := U.isDir_above hn hs
  have hlabel : g.label r ≠ none ∧ g.label r ≠ some .directory := by
    unfold Generation.label
    cases ht : g.tree.get? r with
    | none => simp [ht] at hlink
    | some t => cases t <;> simp_all [symlinkTarget?, treeLabel]
  refine ⟨r, ⟨?_, ?_, fun h => hlabel.1 h.1⟩, .replaced hdir⟩
  · by_contra h
    rw [ignored_append (by simpa using h)] at hignored
    cases hignored
  · rw [Layer.merged_directory hdir]
    exact fun h => hlabel.2 h.symm

/-- An upper node that is no directory and passes for unchanged is one of the kinds. -/
theorem unseen_of_unchanged {n : UpperNode} (hn : U.node q = some n)
    (hleaf : n.isDirectory = false) (hreach : g.Reaches q)
    (hunchanged : unchanged lookups (printed q) = true) : Unseen lookups find q := by
  have hnames := U.valid_names q (by rw [hn]; exact nofun)
  have hlink := lookups.lowerLink_eq q hnames hreach
  cases ht : g.tree.get? q with
  | none =>
      have hfile := lookups.lowerFile_eq q hnames hreach (by rw [ht]; rfl)
      rw [ht] at hlink hfile
      simp [unchanged, hfile, hlink] at hunchanged
  | some t =>
      cases t with
      | directory entries =>
          have hfile := lookups.lowerFile_eq q hnames hreach (by rw [ht]; rfl)
          rw [ht] at hlink hfile
          simp [unchanged, hfile, hlink, regularContents?, symlinkTarget?] at hunchanged
      | symlink target => exact .linked hn ht (Or.inr (by simp [symlinkTarget?])) hunchanged
      | regular executable contents =>
          by_cases htarget : n.target? = none
          · have hfile := lookups.lowerFile_eq q hnames hreach (by rw [ht]; rfl)
            rw [ht] at hlink hfile
            have hsame : lookups.upperIsFile (printed q) = true ∧
                lookups.mntFile (rel (printed q)) = some contents := by
              simpa [unchanged, hfile, hlink, regularContents?, symlinkTarget?] using hunchanged
            obtain ⟨data, metadata, rfl⟩ := (lookups.upperIsFile_eq q n hn htarget).mp hsame.1
            obtain ⟨contents', hmerged⟩ : ∃ contents', U.merged g q = some (.regular contents' metadata) := by
              rw [Layer.merged, hn]
              cases data with
              | some data => exact ⟨data, rfl⟩
              | none =>
                  show ∃ contents', Layer.shown _ _ = _
                  unfold Layer.shown
                  dsimp only
                  split <;> exact ⟨_, rfl⟩
            have hread := lookups.mntFile_eq q contents' metadata (by rw [hn]; exact nofun) hmerged
            rw [hread] at hsame
            obtain rfl := Option.some.inj hsame.2
            exact .executable hn hmerged ht
          · exact .linked hn ht (Or.inl htarget) hunchanged

/-- If nothing is reported, a difference at an upper node that is no directory comes with
one that the scan passes over. -/
theorem unseen_of_leaf {n : UpperNode} (hn : U.node q = some n) (hleaf : n.isDirectory = false)
    (hdiffers : U.Differs g q) (hchg : chg lookups find = []) :
    ∃ r, U.Differs g r ∧ Unseen lookups find r := by
  cases hat : changedAt lookups find with
  | some p => exact ⟨q, hdiffers, .silent hat (chg_eq_nil_iff.mp hchg p hat)⟩
  | none =>
      by_cases hline : newline ∈ printed q
      · exact ⟨q, hdiffers, .newline hn hline⟩
      · by_cases hreach : g.Reaches q
        · have hunchanged := unchanged_of_leaf hn hleaf hdiffers.not_ignored hline hat
          exact ⟨q, hdiffers, unseen_of_unchanged hn hleaf hreach hunchanged⟩
        · exact unseen_of_symlink_above hn hdiffers.not_ignored hreach

/-- A difference is at a node of the layer, or below one; if nothing is reported, one is
passed over. -/
theorem unseen_of_differs (hdiffers : U.Differs g q) (hchg : chg lookups find = []) :
    ∃ r, U.Differs g r ∧ Unseen lookups find r := by
  obtain ⟨a, r, n, rfl, ha, horigin, hnone⟩ := U.exists_above q
  rcases eq_or_ne r [] with rfl | hr
  · rw [List.append_nil] at hdiffers
    cases hleaf : n.isDirectory with
    | false => exact unseen_of_leaf ha hleaf hdiffers hchg
    | true =>
        obtain ⟨lower, metadata, rfl⟩ := UpperNode.isDirectory_iff.mp hleaf
        exact ⟨a, hdiffers, .replaced ha⟩
  · have hmerged : U.label g (a ++ r) = (U.origin (a ++ r)).bind fun q => g.label q := by
      rw [Layer.label, Layer.merged, hnone hr]
      show ((U.origin (a ++ r)).bind g.node).bind _ = _
      rw [Option.bind_assoc]
      exact congrArg _ (funext fun q => Generation.label_bind g q)
    cases hleaf : n.isDirectory with
    | true =>
        obtain ⟨lower, metadata, rfl⟩ := UpperNode.isDirectory_iff.mp hleaf
        refine ⟨a ++ r, hdiffers, .below rfl ha ?_ (hnone hr)⟩
        rintro rfl
        rw [horigin, Layer.origin_directory ha] at hmerged
        exact hdiffers.label_ne hmerged
    | false =>
        -- it hides a lower directory
        rw [horigin, Layer.origin_leaf ha hleaf] at hmerged
        have hbelow : g.label (a ++ r) ≠ none := fun h => hdiffers.label_ne (hmerged.trans h.symm)
        have hlower := Generation.label_below hbelow hr
        refine unseen_of_leaf ha hleaf ⟨?_, ?_, ?_⟩ hchg
        · by_contra h
          have := hdiffers.not_ignored
          rw [ignored_append (by simpa using h)] at this
          cases this
        · rw [hlower]
          exact Layer.label_ne_directory ha hleaf
        · rw [hlower]
          exact nofun

end Seen

/-- What the check is for: with nothing reported, the archives are the same. -/
def IsSound {g : Generation} {U : Layer} (lookups : Lookups g U) (find : Find U) : Prop :=
  chg lookups find = [] → IsArchivedAs (U.considered g) g.considered.nar

theorem isSound_iff {g : Generation} {U : Layer} (lookups : Lookups g U) (find : Find U) :
    IsSound lookups find ↔
      (∃ p, changedAt lookups find = some p ∧ substitute (echo (rel p)) ≠ []) ∨
        ∀ q, U.Differs g q → ¬ Unseen lookups find q := by
  unfold IsSound
  rw [isArchivedAs_iff]
  constructor
  · intro h
    by_cases hchg : chg lookups find = []
    · exact Or.inr fun q hdiffers => absurd hdiffers (h hchg q)
    · rw [chg_eq_nil_iff] at hchg
      exact Or.inl (by simpa using hchg)
  · rintro (⟨p, hp, hprints⟩ | hseen) hchg q hdiffers
    · exact hprints (chg_eq_nil_iff.mp hchg p hp)
    · obtain ⟨r, hr, hunseen⟩ := unseen_of_differs hdiffers hchg
      exact hseen r hr hunseen

/-! ## Lookups without symlinks to follow -/

section Plain

/-- The names in a path. -/
def components (p : Bytes) : Path :=
  (p.splitOn 47).filter fun name => name ≠ [] ∧ name ≠ str "."

variable {q : Path}

theorem splitOn_names (hnames : ∀ name ∈ q, ValidName name) {first : Bytes} (hfirst : 47 ∉ first) :
    (first ++ q.flatMap fun name => str "/" ++ name).splitOn 47 = first :: q := by
  induction q generalizing first with
  | nil => simp [List.splitOn_eq_singleton hfirst]
  | cons name q ih =>
      have hname := hnames name (by simp)
      rw [List.flatMap_cons]
      show (first ++ 47 :: (name ++ _)).splitOn 47 = _
      rw [List.splitOn_append_cons_self_of_not_mem hfirst,
        ih (fun n hn => hnames n (List.mem_cons_of_mem _ hn)) hname.noSlash]

theorem filter_names (hnames : ∀ name ∈ q, ValidName name) :
    q.filter (fun name => name ≠ [] ∧ name ≠ str ".") = q := by
  rw [List.filter_eq_self]
  intro name hname
  have hvalid := hnames name hname
  simp [hvalid.nonempty, hvalid.notDot]

theorem components_printed (hnames : ∀ name ∈ q, ValidName name) : components (printed q) = q := by
  cases q with
  | nil => decide
  | cons name q =>
      unfold components
      rw [show printed (name :: q) = str "." ++ (name :: q).flatMap fun name => str "/" ++ name from rfl,
        splitOn_names hnames (by decide), List.filter_cons_of_neg (by decide), filter_names hnames]

theorem components_rel (hnames : ∀ name ∈ q, ValidName name) :
    components (rel (printed q)) = q := by
  cases q with
  | nil => decide
  | cons name q =>
      have hrest : ∀ n ∈ q, ValidName n := fun n hn => hnames n (List.mem_cons_of_mem _ hn)
      have hname := (hnames name (by simp)).noSlash
      have hrel : rel (printed (name :: q)) = name ++ q.flatMap fun name => str "/" ++ name := by
        show rel (46 :: 47 :: (name ++ _)) = _
        rw [rel, if_pos (by simp [str])]
        rfl
      unfold components
      rw [hrel, splitOn_names hrest hname, filter_names hnames]

/-- A host on which no symlink leads to a file. -/
def Lookups.plain (g : Generation) (U : Layer) : Lookups g U where
  upperIsFile p :=
    match U.node (components p) with
    | some (.regular _ _) => true
    | _ => false
  upperLink p := (U.node (components p)).bind UpperNode.target?
  mntFile p :=
    match U.merged g (components p) with
    | some (.regular contents _) => some contents
    | _ => none
  lowerFile p := (g.tree.get? (components p)).bind regularContents?
  lowerLink p := (g.tree.get? (components p)).bind symlinkTarget?
  upperIsFile_eq q n hn htarget := by
    rw [components_printed (U.valid_names q (by rw [hn]; exact nofun)), hn]
    cases n <;> simp
  upperLink_eq q n hn := by
    rw [components_printed (U.valid_names q (by rw [hn]; exact nofun)), hn]
    rfl
  mntFile_eq q contents metadata hn hmerged := by
    rw [components_rel (U.valid_names q hn), hmerged]
  lowerFile_eq q hnames hreach hlink := by rw [components_rel hnames]
  lowerLink_eq q hnames hreach := by rw [components_rel hnames]

/-- `find` in the order in which the nodes were made. -/
def Find.plain (U : Layer) : Find U where
  order := (U.dom.filter fun q => !ignored q && (U.node q).any fun n => !n.isDirectory).dedup
  nodup := List.nodup_dedup _
  mem_order q := by
    rw [List.mem_dedup, List.mem_filter]
    cases hn : U.node q with
    | none => simp
    | some n =>
        have hmem := U.mem_dom q (by rw [hn]; exact nofun)
        simp [hmem, and_comm]

end Plain

/-! ## The check -/

/-- A generation with a program in it. -/
def programOnly : Generation where
  entries :=
    [(str "etc", .directory [(str "nixgen", .directory
      (["acls", "attrs", "caps", "perms", "xattrs"].map fun name => (str name, .regular false [])))]),
      (str "x", .regular true [])]
  representable := by
    have hfile : ∀ executable, (Tree.regular executable []).Representable :=
      fun executable => .regular executable (by decide)
    refine .directory (by decide) (by decide) (List.forall_mem_cons.mpr ⟨?_, by simp [hfile]⟩)
    refine .directory (by decide) (by decide) (List.forall_mem_cons.mpr ⟨?_, by simp⟩)
    exact .directory (by decide) (by decide) (by simp [hfile])
  height := by decide

def nothingFound : Probes := ⟨[], [], [], []⟩

/-- `chmod 644 x`. -/
def programClosed : List Change := [.setattr [] (str "x") ⟨0o644, 0, 0⟩]

end Nixgen
end Archinix
