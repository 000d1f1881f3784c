import Archinix.Host.DirectoryAccessor
import Archinix.Foundation.Contract

/-!
# Opening a parent directory

What `openFileEnsureBeneathNoSymlinks` does, cut at a directory that the path leads
through: opening the rest of the path from there ends the same way.  With `openat2` this is
so for paths that fit into one call.
-/

namespace Archinix
namespace Host

open Foundation Util

variable {v : TreeView} {dirFd fd fd' : Path} {path rest : CanonPath} {name : Name}

/-! ## Paths through directories -/

namespace TreeView

theorem openat_path_eq_ok : v.openat .path dirFd name = .ok fd ↔
    ∃ mode mtime, v.lookup dirFd name = .ok (.directory mode mtime) ∧ fd = dirFd ++ [name] := by
  unfold openat
  cases hname : v.lookup dirFd name with
  | error e => simp
  | ok node =>
      cases node with
      | directory mode mtime => simp [eq_comm]
      | leaf i => simp

namespace Leads

theorem trans (h : v.Leads dirFd path fd) (h' : v.Leads fd rest fd') :
    v.Leads dirFd (path ++ rest) fd' := by
  induction h with
  | here => exact h'
  | into hname _ ih => exact .into hname (ih h')

theorem split (h : v.Leads dirFd (path ++ rest) fd') :
    ∃ fd, v.Leads dirFd path fd ∧ v.Leads fd rest fd' := by
  induction path generalizing dirFd with
  | nil => exact ⟨dirFd, .here _, h⟩
  | cons name tail ih =>
      cases h with
      | into hname hrest =>
          obtain ⟨fd, hfd, hfd'⟩ := ih hrest
          exact ⟨fd, .into hname hfd, hfd'⟩

theorem single {mode : Mode} {mtime : Time} (hname : v.lookup dirFd name = .ok (.directory mode mtime)) :
    v.Leads dirFd [name] (dirFd ++ [name]) := .into hname (.here _)

/-- The directory is the one below the first along the path. -/
theorem eq_append (h : v.Leads dirFd path fd) : fd = dirFd ++ path := by
  induction h with
  | here => simp
  | into _ _ ih => rw [ih, List.append_assoc, List.singleton_append]

theorem resolveBeneath_append (flags : OpenFlags) (h : v.Leads dirFd path fd) (hrest : rest ≠ []) :
    v.resolveBeneath flags dirFd (path ++ rest) = v.resolveBeneath flags fd rest := by
  induction h with
  | here => rfl
  | @into dirFd fd name tail mode mtime hname _ ih =>
      rw [List.cons_append, resolveBeneath, hname]
      show (if tail ++ rest = [] then _ else _) = _
      rw [if_neg (by simp [hrest]), ih]

/-- The directory a path leads to is opened, if it may be read. -/
theorem resolveBeneath_eq (flags : OpenFlags) (h : v.Leads dirFd path fd) (hne : path ≠ []) :
    v.resolveBeneath flags dirFd path = v.openForReading fd := by
  induction h with
  | here => exact absurd rfl hne
  | @into dirFd fd name tail mode mtime hname htail ih =>
      rw [resolveBeneath, hname]
      show (if tail = [] then _ else _) = _
      split
      · rename_i htailnil
        subst htailnil
        cases htail
        rfl
      · rename_i htailne
        exact ih htailne

end Leads

theorem openForReading_eq_ok : v.openForReading dirFd = .ok fd ↔ v.refusesOpen dirFd = none ∧ fd = dirFd := by
  unfold openForReading
  cases v.refusesOpen dirFd with
  | none => simp [eq_comm]
  | some e => simp

/-- A directory that `openat2` has opened for reading. -/
theorem leads_of_resolveBeneath (h : v.resolveBeneath .directory dirFd path = .ok fd) :
    v.Leads dirFd path fd ∧ v.refusesOpen fd = none := by
  induction path generalizing dirFd with
  | nil => cases h
  | cons name rest ih =>
      unfold resolveBeneath at h
      cases hname : v.lookup dirFd name with
      | error e =>
          rw [hname] at h
          cases h
      | ok node =>
          rw [hname] at h
          cases node with
          | directory mode mtime =>
              dsimp only at h
              split at h
              · rename_i hrest
                obtain ⟨hopens, rfl⟩ := openForReading_eq_ok.1 h
                subst hrest
                exact ⟨.single hname, hopens⟩
              · obtain ⟨hleads, hopens⟩ := ih h
                exact ⟨.into hname hleads, hopens⟩
          | leaf i =>
              dsimp only at h
              split at h
              · cases h
              · simp at h

end TreeView

/-! ## Errors from further up -/

/-- An exception of a call that knows the path from `anchor` on only, as a call that knows
the whole path throws it. -/
def rebase {α : Type} (anchor : CanonPath) : Except AccessorException α → Except AccessorException α
  | .error (.symlinkNotAllowed path _) => .error (symlinkNotAllowed (anchor ++ path))
  | r => r

@[simp] theorem rebase_ok {α : Type} (anchor : CanonPath) (x : α) : rebase anchor (.ok x) = .ok x := rfl

theorem rebase_bind {α β : Type} {anchor : CanonPath} {r : Except AccessorException α}
    {f g : α → Except AccessorException β} (hf : ∀ x, rebase anchor (f x) = g x) :
    rebase anchor (r >>= f) = rebase anchor r >>= g := by
  cases r with
  | ok x => exact hf x
  | error e => cases e <;> rfl

theorem DirectoryAccessor.fixUp_rebase {α : Type} (a : DirectoryAccessor) (anchor : CanonPath) (fmt : String)
    (r : Except AccessorException α) : a.fixUp [] fmt (rebase anchor r) = a.fixUp anchor fmt r := by
  cases r with
  | ok x => rfl
  | error e => cases e <;> rfl

/-- What comes after a failed `openat` throws, if anything, the path it is given. -/
theorem refuseSymlink_append (errNo : Errno) (anchor : CanonPath) :
    (refuseSymlink v errNo dirFd name (anchor ++ path) : Except AccessorException Unit) =
      rebase anchor (refuseSymlink v errNo dirFd name path) := by
  unfold refuseSymlink maybeFstatat
  split
  · cases v.lookup dirFd name with
    | ok node =>
        show (if v.isSymlink node = true then _ else _) = rebase anchor (if v.isSymlink node = true then _ else _)
        split <;> rfl
    | error e =>
        dsimp only
        split <;> rfl
  · split <;> rfl

/-! ## The loop over components -/

theorem openComponents_error (parentFd : Option Path) {e : Errno} {component : Name} (prev : CanonPath)
    (rest : List Name) (h : v.openat .path (parentFd.getD dirFd) component = .error e) :
    (openComponents v none dirFd parentFd prev (component :: rest) : Except AccessorException _) =
      (do refuseSymlink v e (parentFd.getD dirFd) component (prev ++ [component])
          pure (.error e)) := by
  rw [openComponents, h]

theorem openComponents_ok (parentFd : Option Path) {fd' : Path} {component : Name} (prev : CanonPath)
    (rest : List Name) (h : v.openat .path (parentFd.getD dirFd) component = .ok fd') :
    (openComponents v none dirFd parentFd prev (component :: rest) : Except AccessorException _) =
      openComponents v none dirFd (some fd') (prev ++ [component]) rest := by
  rw [openComponents, h]
  rfl

/-- From its first round on, the loop goes on as from the directory it has opened. -/
theorem openComponents_some (prev : CanonPath) (rest : List Name) :
    (openComponents v none dirFd (some fd) prev rest : Except AccessorException _) =
      openComponents v none fd none prev rest := by
  induction rest generalizing dirFd fd prev with
  | nil => rfl
  | cons component rest ih =>
      rcases hopens : v.openat .path fd component with e | fd'
      · rw [openComponents_error (some fd) prev rest hopens]
        rw [openComponents_error none prev rest hopens]
        rfl
      · rw [openComponents_ok (some fd) prev rest hopens]
        rw [openComponents_ok none prev rest hopens, ih, ih]

theorem openComponents_rebase (anchor prev : CanonPath) (rest : List Name) :
    (openComponents v none dirFd none (anchor ++ prev) rest : Except AccessorException _) =
      rebase anchor (openComponents v none dirFd none prev rest) := by
  induction rest generalizing dirFd prev with
  | nil => rfl
  | cons component rest ih =>
      rcases hopens : v.openat .path dirFd component with e | fd'
      · rw [openComponents_error none (anchor ++ prev) rest hopens, openComponents_error none prev rest hopens]
        rw [List.append_assoc, refuseSymlink_append, rebase_bind]
        intro x
        rfl
      · rw [openComponents_ok none (anchor ++ prev) rest hopens, openComponents_ok none prev rest hopens]
        rw [openComponents_some, openComponents_some, List.append_assoc, ih]

theorem openComponents_append (h : v.Leads dirFd path fd) (prev : CanonPath) (rest : List Name) :
    (openComponents v none dirFd none prev (path ++ rest) : Except AccessorException _) =
      openComponents v none fd none (prev ++ path) rest := by
  induction h generalizing prev with
  | here => rw [List.append_nil, List.nil_append]
  | @into dirFd fd name tail mode mtime hname _ ih =>
      have hopens : v.openat .path dirFd name = .ok (dirFd ++ [name]) :=
        TreeView.openat_path_eq_ok.2 ⟨mode, mtime, hname, rfl⟩
      rw [List.cons_append, openComponents_ok none prev _ hopens]
      rw [openComponents_some, ih, List.append_assoc, List.singleton_append]

theorem openComponents_of_leads (h : v.Leads dirFd path fd) :
    (openComponents v none dirFd none [] path : Except AccessorException _) = .ok (.ok fd) := by
  have happend := openComponents_append h [] []
  rw [List.append_nil] at happend
  exact happend

theorem leads_of_openComponents {prev : CanonPath}
    (h : (openComponents v none dirFd none prev path : Except AccessorException _) = .ok (.ok fd)) :
    v.Leads dirFd path fd := by
  induction path generalizing dirFd prev with
  | nil =>
      cases h
      exact .here _
  | cons name rest ih =>
      rw [openComponents] at h
      cases hopens : v.openat .path dirFd name with
      | error e =>
          rw [show ((none : Option Path).getD dirFd) = dirFd from rfl, hopens] at h
          obtain ⟨_, _, herror⟩ := except_bind_eq_ok h
          cases herror
      | ok fd' =>
          rw [show ((none : Option Path).getD dirFd) = dirFd from rfl, hopens] at h
          obtain ⟨mode, mtime, hname, rfl⟩ := TreeView.openat_path_eq_ok.1 hopens
          have hrest : (openComponents v none dirFd (some (dirFd ++ [name])) _ rest :
              Except AccessorException _) = .ok (.ok fd) := h
          rw [openComponents_some] at hrest
          exact .into hname (ih hrest)

/-! ## Opening -/

theorem dropLast_append_of_ne (path : CanonPath) (hrest : rest ≠ []) :
    (path ++ rest).dropLast = path ++ rest.dropLast ∧
      (path ++ rest).getLast?.getD [] = rest.getLast?.getD [] := by
  refine ⟨List.dropLast_append_of_ne_nil hrest, ?_⟩
  rw [List.getLast?_append_of_ne_nil _ hrest]

theorem iterative_error {flags : OpenFlags} {parentFd : Path} {e : Errno}
    (hparent : (openComponents v none dirFd none [] path.dropLast : Except AccessorException _) =
      .ok (.ok parentFd)) (hopens : v.openat flags parentFd (path.getLast?.getD []) = .error e) :
    (openFileEnsureBeneathNoSymlinksIterative v flags dirFd path none : Except AccessorException _) =
      (do refuseSymlink v e parentFd (path.getLast?.getD []) path
          pure (.error e)) := by
  unfold openFileEnsureBeneathNoSymlinksIterative
  rw [hparent]
  simp only [bind, Except.bind, hopens]

theorem iterative_ok {flags : OpenFlags} {parentFd res : Path}
    (hparent : (openComponents v none dirFd none [] path.dropLast : Except AccessorException _) =
      .ok (.ok parentFd)) (hopens : v.openat flags parentFd (path.getLast?.getD []) = .ok res) :
    (openFileEnsureBeneathNoSymlinksIterative v flags dirFd path none : Except AccessorException _) =
      .ok (.ok res) := by
  unfold openFileEnsureBeneathNoSymlinksIterative
  rw [hparent]
  simp only [bind, Except.bind, hopens]
  rfl

theorem iterative_append (flags : OpenFlags) (h : v.Leads dirFd path fd) (hrest : rest ≠ []) :
    (openFileEnsureBeneathNoSymlinksIterative v flags dirFd (path ++ rest) none :
      Except AccessorException _) =
      rebase path (openFileEnsureBeneathNoSymlinksIterative v flags fd rest none) := by
  obtain ⟨hinit, hlast⟩ := dropLast_append_of_ne path hrest
  have hcomponents : openComponents v none dirFd none [] (path ++ rest).dropLast =
      rebase path (openComponents v none fd none [] rest.dropLast) := by
    rw [hinit, openComponents_append h, ← openComponents_rebase, List.append_nil, List.nil_append]
  rcases hparent : (openComponents v none fd none [] rest.dropLast : Except AccessorException _)
    with thrown | (e | parentFd)
  · rw [hparent] at hcomponents
    unfold openFileEnsureBeneathNoSymlinksIterative
    rw [hparent, hcomponents]
    cases thrown <;> rfl
  · rw [hparent] at hcomponents
    unfold openFileEnsureBeneathNoSymlinksIterative
    rw [hparent, hcomponents]
    rfl
  · rw [hparent] at hcomponents
    rcases hopens : v.openat flags parentFd (rest.getLast?.getD []) with e | res
    · rw [iterative_error hcomponents (by rw [hlast]; exact hopens), iterative_error hparent hopens, hlast]
      rw [refuseSymlink_append]
      refine (rebase_bind ?_).symm
      exact fun _ => rfl
    · rw [iterative_ok hcomponents (by rw [hlast]; exact hopens), iterative_ok hparent hopens]
      rfl

/-- A directory that may be read is opened. -/
theorem iterative_of_leads (h : v.Leads dirFd path fd) (hne : path ≠ [])
    (hreads : v.refusesOpen fd = none) :
    (openFileEnsureBeneathNoSymlinksIterative v .directory dirFd path none :
      Except AccessorException _) = .ok (.ok fd) := by
  obtain ⟨init, name, rfl⟩ : ∃ init name, path = init ++ [name] :=
    ⟨path.dropLast, path.getLast hne, (List.dropLast_append_getLast hne).symm⟩
  obtain ⟨parent, hparent, hname⟩ := h.split
  cases hname with
  | @into _ _ _ _ mode mtime hname hhere =>
      cases hhere
      have hopens : v.openat .directory parent name = .ok (parent ++ [name]) := by
        rw [TreeView.openat, hname]
        exact TreeView.openForReading_eq_ok.2 ⟨hreads, rfl⟩
      have hinit : (openComponents v none dirFd none [] (init ++ [name]).dropLast :
          Except AccessorException _) = .ok (.ok parent) := by
        rw [List.dropLast_concat, openComponents_of_leads hparent]
      refine iterative_ok hinit ?_
      rw [List.getLast?_concat]
      exact hopens

theorem leads_of_iterative (hne : path ≠ [])
    (h : (openFileEnsureBeneathNoSymlinksIterative v .directory dirFd path none :
      Except AccessorException _) = .ok (.ok fd)) :
    v.Leads dirFd path fd ∧ v.refusesOpen fd = none := by
  obtain ⟨init, name, rfl⟩ : ∃ init name, path = init ++ [name] :=
    ⟨path.dropLast, path.getLast hne, (List.dropLast_append_getLast hne).symm⟩
  obtain ⟨components, hcomponents, hlast⟩ := except_bind_eq_ok h
  cases components with
  | error e => cases hlast
  | ok parentFd =>
      cases hopens : v.openat .directory parentFd ((init ++ [name]).getLast?.getD []) with
      | error e =>
          rw [iterative_error hcomponents hopens] at h
          obtain ⟨_, _, herror⟩ := except_bind_eq_ok h
          cases herror
      | ok res =>
          rw [iterative_ok hcomponents hopens] at h
          cases h
          rw [List.dropLast_concat] at hcomponents
          have hparent := leads_of_openComponents hcomponents
          rw [List.getLast?_concat, Option.getD_some] at hopens
          rw [TreeView.openat] at hopens
          cases hname : v.lookup parentFd name with
          | error e =>
              rw [hname] at hopens
              cases hopens
          | ok node =>
              rw [hname] at hopens
              cases node with
              | leaf i => simp at hopens
              | directory mode mtime =>
                  obtain ⟨hreads, rfl⟩ := TreeView.openForReading_eq_ok.1 (show
                    v.openForReading (parentFd ++ [name]) = .ok fd from hopens)
                  exact ⟨hparent.trans (.single hname), hreads⟩

theorem length_rel (path : CanonPath) :
    (CanonPath.rel path).length = (path.flatMap fun name => str "/" ++ name).length - 1 := by
  unfold CanonPath.rel
  rw [List.length_drop]
  cases path with
  | nil => rfl
  | cons name rest => rfl

theorem length_rel_le (path rest : CanonPath) :
    (CanonPath.rel rest).length ≤ (CanonPath.rel (path ++ rest)).length := by
  rw [length_rel, length_rel, List.flatMap_append, List.length_append]
  omega

/-- The path fits into a call of `openat2`, if there is one. -/
def TreeView.Fits (v : TreeView) (path : CanonPath) : Prop :=
  v.hasOpenat2 = true → (CanonPath.rel path).length < pathMax

theorem TreeView.Fits.openat2_eq (h : v.Fits path) (hopenat2 : v.hasOpenat2 = true) (flags : OpenFlags) :
    v.openat2 flags dirFd path = v.resolveBeneath flags dirFd path := by
  have hlength := h hopenat2
  rw [openat2, if_neg (by omega)]

/-- A path that leads through a directory is opened from there. -/
theorem openFileEnsureBeneathNoSymlinks_append (flags : OpenFlags) (h : v.Leads dirFd path fd)
    (hrest : rest ≠ []) (hfits : v.Fits (path ++ rest)) :
    (openFileEnsureBeneathNoSymlinks v flags dirFd (path ++ rest) none :
      Except AccessorException _) =
      rebase path (openFileEnsureBeneathNoSymlinks v flags fd rest none) := by
  unfold openFileEnsureBeneathNoSymlinks
  split
  · rename_i hopenat2
    have hfitsrest : v.Fits rest := fun h => lt_of_le_of_lt (length_rel_le path rest) (hfits h)
    rw [hfits.openat2_eq hopenat2, hfitsrest.openat2_eq hopenat2, h.resolveBeneath_append flags hrest]
    cases v.resolveBeneath flags fd rest with
    | ok res => rfl
    | error e =>
        dsimp only
        split <;> rfl
  · exact iterative_append flags h hrest

theorem openFileEnsureBeneathNoSymlinks_of_leads (h : v.Leads dirFd path fd) (hne : path ≠ [])
    (hfits : v.Fits path) (hreads : v.refusesOpen fd = none) :
    (openFileEnsureBeneathNoSymlinks v .directory dirFd path none : Except AccessorException _) =
      .ok (.ok fd) := by
  unfold openFileEnsureBeneathNoSymlinks
  split
  · rename_i hopenat2
    rw [hfits.openat2_eq hopenat2, h.resolveBeneath_eq .directory hne,
      TreeView.openForReading_eq_ok.2 ⟨hreads, rfl⟩]
    rfl
  · exact iterative_of_leads h hne hreads

theorem leads_of_openFileEnsureBeneathNoSymlinks (hne : path ≠ [])
    (h : (openFileEnsureBeneathNoSymlinks v .directory dirFd path none : Except AccessorException _) =
      .ok (.ok fd)) : v.Leads dirFd path fd ∧ v.refusesOpen fd = none ∧ v.Fits path := by
  unfold openFileEnsureBeneathNoSymlinks at h
  split at h
  · cases hopens : v.openat2 .directory dirFd path with
    | error e =>
        rw [hopens] at h
        dsimp only at h
        split at h <;> cases h
    | ok res =>
        rw [hopens] at h
        cases h
        rw [TreeView.openat2] at hopens
        split at hopens
        · cases hopens
        · rename_i hlength
          obtain ⟨hleads, hreads⟩ := TreeView.leads_of_resolveBeneath hopens
          exact ⟨hleads, hreads, fun _ => by omega⟩
  · rename_i hopenat2
    obtain ⟨hleads, hreads⟩ := leads_of_iterative hne h
    exact ⟨hleads, hreads, fun h => absurd h hopenat2⟩

/-! ## Opening the parent -/

namespace DirectoryAccessor

variable {a : DirectoryAccessor}

/-- Opening from a directory on the way ends as opening from the root does. -/
theorem openParentFrom_append (h : v.Leads a.dirFd path fd) (hrest : rest ≠ [])
    (hfits : v.Fits (path ++ rest)) :
    openParentFrom v a noCaches a.dirFd [] (path ++ rest) = openParentFrom v a noCaches fd path rest := by
  unfold openParentFrom
  show a.fixUp [] _ (openFileEnsureBeneathNoSymlinks v .directory a.dirFd (path ++ rest) none >>= _) =
    a.fixUp path _ (openFileEnsureBeneathNoSymlinks v .directory fd rest none >>= _)
  rw [openFileEnsureBeneathNoSymlinks_append .directory h hrest hfits, ← a.fixUp_rebase path]
  refine congrArg (a.fixUp [] _) (rebase_bind ?_).symm
  intro res
  cases res <;> rfl

theorem openParentFrom_of_leads (h : v.Leads a.dirFd path fd) (hne : path ≠ []) (hfits : v.Fits path)
    (hreads : v.refusesOpen fd = none) :
    openParentFrom v a noCaches a.dirFd [] path = .ok (.ok (fd, some fd)) := by
  unfold openParentFrom
  show a.fixUp [] _ (openFileEnsureBeneathNoSymlinks v .directory a.dirFd path none >>= _) = _
  rw [openFileEnsureBeneathNoSymlinks_of_leads h hne hfits hreads]
  rfl

theorem leads_of_openParentFrom {anchor : CanonPath} {opened : Path × Option Path} (hne : path ≠ [])
    (h : openParentFrom v a noCaches dirFd anchor path = .ok (.ok opened)) :
    ∃ fd, opened = (fd, some fd) ∧ v.Leads dirFd path fd ∧ v.refusesOpen fd = none ∧ v.Fits path := by
  unfold openParentFrom at h
  change a.fixUp anchor _ (openFileEnsureBeneathNoSymlinks v .directory dirFd path none >>= _) = _ at h
  cases hopens : (openFileEnsureBeneathNoSymlinks v .directory dirFd path none :
      Except AccessorException _) with
  | error e =>
      rw [hopens] at h
      cases e <;> cases h
  | ok res =>
      rw [hopens] at h
      cases res with
      | error e => cases h
      | ok fd =>
          cases h
          exact ⟨fd, rfl, leads_of_openFileEnsureBeneathNoSymlinks hne hopens⟩

end DirectoryAccessor

end Host
end Archinix
