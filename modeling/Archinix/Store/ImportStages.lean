import Archinix.Store.ReproduciblePaths

/-!
# How far an import has come

What an import of one path holds on to from step to step, for any number of processes: a
`Stage` says what it has found out and put in place, `Knows` what follows for the world,
`Importing` which calls a stage allows.  Both import functions keep to it
(`addToStoreFromDump_stages`, `addToStore_stages`), and what one process does leaves what
the others know alone (`Frame.knows`).
-/

namespace Archinix
namespace Store
namespace Adding

open Foundation Util

/-- How far an import of a path has come, with the tree restored in its temporary directory,
if there is one. -/
inductive Stage where
  /-- Without the lock. -/
  | free (temp : Option Tree)
  | locked (temp : Option Tree)
  /-- The path is not valid. -/
  | unregistered (temp : Option Tree)
  /-- Nothing is left at the real path. -/
  | cleared (temp : Option Tree)
  /-- The tree has been moved, if this did not fail silently. -/
  | moved (t : Tree)
  | placed (t : Tree)
  /-- The path was seen or made valid. -/
  | settled
  /-- No import: the collector. -/
  | collecting

namespace Stage

/-- What is left when the lock or the temporary directory goes. -/
def released : Stage → Stage
  | settled => settled
  | collecting => collecting
  | _ => free none

/-- After an answer of `isValidPath`. -/
def checked : Bool → Stage → Stage
  | true, _ => settled
  | false, locked temp => unregistered temp
  | false, s => s

theorem settled_of_checked {s : Stage} (h : s.checked false = settled) : s = settled := by
  cases s <;> first | rfl | cases h

theorem settled_of_released {s : Stage} (h : s.released = settled) : s = settled := by
  cases s <;> first | rfl | cases h

theorem released_importing {s : Stage} (h : s ≠ collecting) : s.released ≠ collecting := by
  cases s <;> simp_all [released]

end Stage

section Leaves

variable {α : Type} {s : Stage}

/-- An import ends in a stage, and in a certain one if it returns. -/
def Leaves (goal : Stage → Prop) (x : Except Exception α) (held : Option Stage) : Prop :=
  ∃ s, held = some s ∧ s ≠ .collecting ∧ ∀ v, x = .ok v → goal s

theorem leaves_error {goal : Stage → Prop} (e : Exception) (hs : s ≠ .collecting) :
    Leaves goal (.error e : Except Exception α) (some s) :=
  ⟨s, rfl, hs, fun _ h => by cases h⟩

theorem leaves_ok {goal : Stage → Prop} (v : α) (hs : s ≠ .collecting) (hgoal : goal s) :
    Leaves goal (.ok v) (some s) :=
  ⟨s, rfl, hs, fun _ _ => hgoal⟩

end Leaves

section Contract

variable [Sha256]

/-- The archive at the beginning of the source, handed on write by write. -/
def Archived (met : Set Tree) (source : Bytes) (read : List Bytes × Bytes) (t : Tree) : Prop :=
  t ∈ met ∧ t.Representable ∧ t.height ≤ narMaxDepth ∧ read.1.flatten = t.nar ∧
    source = t.nar ++ read.2

/-- The info is that of a tree. -/
structure Describes (info : ValidPathInfo) (path : StorePath) (t : Tree) : Prop where
  path : info.path = path
  narHash : info.narHash = hashString t.nar
  narSize : info.narSize = t.nar.length
  references : info.references = []

variable (path : StorePath) (met : Set Tree)

/-- The calls that a stage allows; `met` are the trees that sources may begin with. -/
def Allowed : Request → Stage → Prop
  | .dirGrantsDefaultAcl, _ => True
  | .createTempDirInStore, s => ∃ temp, s = .free temp
  | .deleteTempDir, s => s ≠ .collecting
  | .restorePath place source, s =>
      (∀ t rest, t.Representable → t.height ≤ narMaxDepth → source = t.nar ++ rest → t ∈ met) ∧
      ((place = .temp ∧ ∃ temp, s = .free temp) ∨ (place = .realPath path ∧ ∃ temp, s = .cleared temp))
  | .finishHash _, _ => True
  | .isValidPath p, s => p = path ∧ s ≠ .collecting
  | .lockPath p, s => p = path ∧ ∃ temp, s = .free temp
  | .unlockPath p _, s => p = path ∧ s ≠ .collecting
  | .remove p, s => (p = path ∧ ∃ temp, s = .unregistered temp) ∨ s = .collecting
  | .moveFile p, s => p = path ∧ ∃ t, s = .cleared (some t)
  | .canonicalise p _, s => p = path ∧ ∃ t, s = .moved t ∨ s = .placed t
  | .optimisePath p, s => p = path ∧ ∃ t, s = .placed t
  | .sync p, s => p = path ∧ ∃ t, s = .placed t
  | .registerValidPath info, s => ∃ t, s = .placed t ∧ Describes info path t
  | .lockGC, s => s = .collecting
  | .unlockGC, s => s = .collecting
  | .findRoots, s => s = .collecting
  | .invalidatePathChecked _, s => s = .collecting

/-- The stage after a call. -/
def After : (r : Request) → Stage → Except Exception r.Val → Stage → Prop
  | .createTempDirInStore, _, _, s' => s' = .free none
  | .deleteTempDir, s, _, s' => s' = s.released
  | .restorePath .temp source, _, .ok read, s' => ∃ t, Archived met source read t ∧ s' = .free (some t)
  | .restorePath .temp _, _, .error _, s' => s' = .free none
  | .restorePath (.realPath _) source, _, .ok read, s' => ∃ t, Archived met source read t ∧ s' = .placed t
  | .restorePath (.realPath _) _, _, .error _, s' => s' = .locked none
  | .finishHash writes, s, x, s' => (∀ result, x = .ok result → result = hashSink writes.flatten) ∧ s' = s
  | .isValidPath _, s, .ok valid, s' => s' = s.checked valid
  | .lockPath _, .free temp, .ok _, s' => s' = .locked temp
  | .unlockPath _ _, s, _, s' => s' = s.released
  | .remove _, .unregistered temp, .ok false, s' => s' = .cleared temp
  | .moveFile _, .cleared (some t), .ok _, s' => s' = .moved t
  | .moveFile _, .cleared (some _), .error _, s' => s' = .locked none
  | .canonicalise _ _, .moved t, .ok _, s' => s' = .placed t
  | .registerValidPath _, _, .ok _, s' => s' = .settled
  | _, s, _, s' => s' = s

/-- The contract of an import of `path`; a thread that is not there holds nothing. -/
def Importing : Contract Requests (Option Stage) where
  pre r held := ∃ s, held = some s ∧ Allowed path met r s
  post r held x held' := ∃ s s', held = some s ∧ held' = some s' ∧ After met r s x s'
  fork _ _ _ _ := False
  join held held' := held' = held

end Contract

/-! ## The import functions keep to their stages -/

section Programs

variable [Sha256] {settings : Settings} {depth : Nat} {path : StorePath} {met : Set Tree} {deep : Prop}
  {α β : Type} {s : Stage} {t : Tree} {temp : Option Tree}

theorem stages_call {r : Request} {f : r.Val → Prog Requests β}
    {Q : Except Exception β → Option Stage → Prop} (hpre : Allowed path met r s)
    (hok : ∀ v s', After met r s (.ok v) s' → (f v).Meets (Importing path met) deep Q (some s'))
    (herror : ∀ e s', After met r s (.error e) s' → Q (.error e) (some s')) :
    (call r >>= f).Meets (Importing path met) deep Q (some s) := by
  refine meets_call ⟨s, rfl, hpre⟩ ?_ ?_
  · rintro v _ ⟨_, s', ⟨⟩, rfl, hafter⟩
    exact hok v s' hafter
  · rintro e _ ⟨_, s', ⟨⟩, rfl, hafter⟩
    exact herror e s' hafter

theorem stages_last {r : Request} {Q : Except Exception r.Val → Option Stage → Prop}
    (hpre : Allowed path met r s) (hQ : ∀ x s', After met r s x s' → Q x (some s')) :
    (call r).Meets (Importing path met) deep Q (some s) := by
  refine ⟨⟨s, rfl, hpre⟩, ?_⟩
  rintro x _ ⟨_, s', ⟨⟩, rfl, hafter⟩
  exact hQ x s' hafter

/-- A part whose end is known, and what follows it. -/
theorem leaves_bind {p : Prog Requests α} {f : α → Prog Requests β} {goal goal' : Stage → Prop}
    (h : p.Meets (Importing path met) deep (Leaves goal) (some s))
    (hf : ∀ v s', s' ≠ .collecting → goal s' →
      (f v).Meets (Importing path met) deep (Leaves goal') (some s')) :
    (p >>= f).Meets (Importing path met) deep (Leaves goal') (some s) := by
  refine Prog.meets_bind.mpr (h.mono ?_)
  rintro x _ ⟨s', rfl, hs', hgoal⟩
  cases x with
  | ok v => exact hf v s' hs' (hgoal v rfl)
  | error e => exact leaves_error e hs'

theorem unlessValid_stages {body : Prog Requests Unit} (hs : s ≠ .collecting)
    (hbody : body.Meets (Importing path met) deep (Leaves (· = .settled)) (some (s.checked false))) :
    (unlessValid path body).Meets (Importing path met) deep (Leaves (· = .settled)) (some s) := by
  refine stages_call ⟨rfl, hs⟩ ?_ ?_
  · rintro valid _ rfl
    cases valid with
    | true => exact leaves_ok () (by simp [Stage.checked]) rfl
    | false => exact hbody
  · rintro e _ rfl
    exact leaves_error e hs

theorem locked_stages {body : Prog Requests Unit}
    (hbody : body.Meets (Importing path met) deep (Leaves (· = .settled)) (some (.locked temp))) :
    (locked path body).Meets (Importing path met) deep (Leaves (· = .settled)) (some (.free temp)) := by
  refine stages_call ⟨rfl, temp, rfl⟩ ?_ ?_
  · rintro ⟨⟩ _ rfl
    refine Prog.meets_bind.mpr (Prog.meets_attempt.mpr (hbody.mono ?_))
    rintro ended _ ⟨s, rfl, hs, hsettled⟩
    refine Prog.meets_bind.mpr (Prog.meets_attempt.mpr (stages_last ⟨rfl, hs⟩ ?_))
    rintro x _ rfl
    refine ⟨s.released, rfl, Stage.released_importing hs, fun v hv => ?_⟩
    rw [hsettled v hv]
    rfl
  · rintro e _ rfl
    exact leaves_error e (by simp)

theorem deletePath_stages (depth : Nat) (temp : Option Tree) :
    (deletePath depth path).Meets (Importing path met) True (Leaves (· = .cleared temp))
      (some (.unregistered temp)) := by
  induction depth with
  | zero => trivial
  | succ depth ih =>
      refine stages_call (Or.inl ⟨rfl, temp, rfl⟩) ?_ ?_
      · intro more s' hafter
        cases more with
        | true =>
            obtain rfl := hafter
            exact ih
        | false =>
            obtain rfl := hafter
            exact leaves_ok () (by simp) rfl
      · rintro e _ rfl
        exact leaves_error e (by simp)

theorem finishPath_stages {canonicalRestore : Bool} (hs : s = .moved t ∨ s = .placed t) :
    (finishPath settings path canonicalRestore).Meets (Importing path met) deep
      (Leaves (· = .placed t)) (some s) := by
  have hcollecting : s ≠ .collecting := by rcases hs with rfl | rfl <;> simp
  have hplaced : ∀ {x : Except Exception Unit}, Leaves (· = .placed t) x (some (.placed t)) :=
    ⟨_, rfl, by simp, fun _ _ => rfl⟩
  refine stages_call ⟨rfl, t, hs⟩ ?_ ?_
  · intro _ s' hafter
    obtain rfl : s' = .placed t := by rcases hs with rfl | rfl <;> exact hafter
    refine stages_call ⟨rfl, t, rfl⟩ ?_ ?_
    · rintro _ _ rfl
      split
      · refine stages_last ⟨rfl, t, rfl⟩ ?_
        rintro x _ rfl
        exact hplaced
      · exact hplaced
    · rintro e _ rfl
      exact hplaced
  · intro e s' hafter
    obtain rfl : s' = s := by rcases hs with rfl | rfl <;> exact hafter
    exact leaves_error e hcollecting

/-- With the lock, and the tree of the dump in the temporary directory, the path is put in
its place and registered. -/
theorem place_stages {name : Bytes} {canonicalRestore : Bool}
    (hpath : settings.makeContentAddressedPath name (hashString t.nar) = .ok path) :
    (FromDump.place settings depth name canonicalRestore (hashSink t.nar) path).Meets
      (Importing path met) True (Leaves (· = .settled)) (some (.unregistered (some t))) := by
  refine leaves_bind (deletePath_stages depth (some t)) ?_
  rintro _ _ - rfl
  refine stages_call ⟨rfl, t, rfl⟩ ?_ ?_
  · rintro _ _ rfl
    refine leaves_bind (finishPath_stages (Or.inl rfl)) ?_
    rintro _ _ - rfl
    refine meets_compute (fun info hinfo => ?_) fun e => leaves_error _ (by simp)
    rw [makeFromCA, show settings.makeContentAddressedPath name (hashSink t.nar).hash = .ok path
      from hpath] at hinfo
    obtain rfl := Except.ok.inj hinfo
    refine stages_last ⟨t, rfl, rfl, rfl, rfl, rfl⟩ ?_
    rintro (e | _) _ rfl
    · exact leaves_error e (by simp)
    · exact leaves_ok () (by simp) rfl
  · rintro e _ rfl
    exact leaves_error e (by simp)

/-- What every archive at the beginning of the source is good for. -/
def Expects (met : Set Tree) (source : Bytes) (P : Tree → Prop) : Prop :=
  ∀ t rest, t.Representable → t.height ≤ narMaxDepth → source = t.nar ++ rest → t ∈ met ∧ P t

theorem restored_stages {source name : Bytes} {canonicalRestore : Bool}
    (hsource : Expects met source fun t =>
      settings.makeContentAddressedPath name (hashString t.nar) = .ok path) :
    (FromDump.restored settings depth source name canonicalRestore).Meets (Importing path met) True
      (fun x held => Leaves (· = .settled) x held ∧ ∀ p, x = .ok p → p = path)
      (some (.free none)) := by
  have hthrown : ∀ (e : Exception) (s : Stage), s ≠ .collecting →
      Leaves (· = .settled) (.error e : Except Exception StorePath) (some s) ∧
        ∀ p, Except.error e = .ok p → p = path :=
    fun e s hs => ⟨leaves_error e hs, fun p hp => by cases hp⟩
  refine stages_call ⟨fun t rest ht hheight hst => (hsource t rest ht hheight hst).1,
    Or.inl ⟨rfl, none, rfl⟩⟩ ?_ ?_
  · rintro ⟨writes, rest⟩ _ ⟨t, ⟨-, ht, hheight, hwrites, hst⟩, rfl⟩
    refine stages_call trivial ?_ ?_
    · rintro dumpHash _ ⟨hhash, rfl⟩
      have hpath := (hsource t rest ht hheight hst).2
      obtain rfl : dumpHash = hashSink t.nar := by rw [hhash _ rfl, hwrites]
      refine meets_compute (fun dstPath hdst => ?_) fun e => hthrown _ _ (by simp)
      obtain rfl := Except.ok.inj (hpath.symm.trans hdst)
      -- under the lock, if the path is not valid
      have hplace : (FromDump.place settings depth name canonicalRestore (hashSink t.nar)
          path).Meets (Importing path met) True (Leaves (· = .settled)) (some (.unregistered (some t))) :=
        place_stages hpath
      have hlocked := locked_stages (unlessValid_stages (s := .locked (some t)) (by simp) hplace)
      have hbody := unlessValid_stages (s := .free (some t)) (by simp) hlocked
      refine Prog.meets_bind.mpr (hbody.mono ?_)
      rintro x _ ⟨s, rfl, hs, hsettled⟩
      cases x with
      | ok v => exact ⟨⟨s, rfl, hs, fun _ _ => hsettled v rfl⟩, fun p hp => (Except.ok.inj hp).symm⟩
      | error e => exact hthrown e s hs
    · rintro e _ ⟨-, rfl⟩
      exact hthrown e _ (by simp)
  · rintro e _ rfl
    exact hthrown e _ (by simp)

/-- An import from a dump keeps to its stages, and returns the path if it returns. -/
theorem addToStoreFromDump_stages {source name : Bytes}
    (hsource : Expects met source fun t =>
      settings.makeContentAddressedPath name (hashString t.nar) = .ok path) :
    (addToStoreFromDump settings depth source name).Meets (Importing path met) True
      (fun x held => Leaves (· = .settled) x held ∧ ∀ p, x = .ok p → p = path)
      (some (.free none)) := by
  have hthrown : ∀ e : Exception,
      Leaves (· = .settled) (.error e : Except Exception StorePath) (some (.free none)) ∧
        ∀ p, Except.error e = .ok p → p = path :=
    fun e => ⟨leaves_error e (by simp), fun p hp => by cases hp⟩
  refine stages_call trivial ?_ ?_
  · rintro acl _ rfl
    refine stages_call ⟨none, rfl⟩ ?_ ?_
    · rintro _ _ rfl
      refine Prog.meets_finally'.mpr ((restored_stages hsource).mono ?_)
      rintro x _ ⟨⟨s, rfl, hs, hsettled⟩, hpath⟩
      refine stages_last hs ?_
      rintro _ _ rfl
      refine ⟨⟨s.released, rfl, Stage.released_importing hs, fun v hv => ?_⟩, hpath⟩
      rw [hsettled v hv]
      rfl
    · rintro e _ rfl
      exact hthrown e
  · rintro e _ rfl
    exact hthrown e

/-- With the lock the path is restored in its place, checked and registered. -/
theorem placeFrom_stages {info : ValidPathInfo} {source : Bytes}
    (hreferences : info.references = []) (hsource : Expects met source fun _ => True) :
    (placeFrom settings depth info source).Meets (Importing info.path met) True
      (Leaves (· = .settled)) (some (.unregistered temp)) := by
  refine leaves_bind (deletePath_stages depth temp) ?_
  rintro _ _ - rfl
  refine stages_call trivial ?_ ?_
  · rintro acl _ rfl
    refine stages_call ⟨fun t rest ht hheight hst => (hsource t rest ht hheight hst).1,
      Or.inr ⟨rfl, temp, rfl⟩⟩ ?_ ?_
    · rintro ⟨writes, rest⟩ _ ⟨t, ⟨-, -, -, hwrites, -⟩, rfl⟩
      have hhash : (writes.foldl HashSink.write HashSink.new).finish = hashSink t.nar := by
        rw [HashSink.finish_foldl_write, hwrites]
      show Prog.Meets _ _ (if _ then _ else if _ then _ else _) _ _
      rw [hhash]
      split
      · exact leaves_error _ (by simp)
      · rename_i hsame
        split
        · exact leaves_error _ (by simp)
        · rename_i hsize
          refine leaves_bind (finishPath_stages (Or.inr rfl)) ?_
          rintro _ _ - rfl
          refine stages_last ⟨t, rfl, rfl, ?_, ?_, hreferences⟩ ?_
          · exact (not_not.mp hsame).symm
          · exact (not_not.mp hsize).symm
          · rintro (e | _) _ rfl
            · exact leaves_error e (by simp)
            · exact leaves_ok () (by simp) rfl
    · rintro e _ rfl
      exact leaves_error e (by simp)
  · rintro e _ rfl
    exact leaves_error e (by simp)

theorem addToStore_stages {info : ValidPathInfo} {source : Bytes}
    (hreferences : info.references = []) (hsource : Expects met source fun _ => True) :
    (addToStore settings depth info source).Meets (Importing info.path met) True
      (Leaves (· = .settled)) (some (.free none)) :=
  unlessValid_stages (by simp) (locked_stages (unlessValid_stages (by simp)
    (placeFrom_stages hreferences hsource)))

end Programs

end Adding
end Store
end Archinix
