import Archinix.Store.ConcurrentImporters

/-!
# An import beside the collector

Imports lock the path, `collectGarbage` locks `gc.lock`, and nobody locks both: the
collector may come to remove a path after an import of it has found that it is not valid.
`registered_of_spared` is what holds if it does not, `collector_removes_registered` a run in
which it does.
-/

namespace Archinix
namespace Store
namespace Adding

open Foundation Util

section Collector

variable (settings : Settings) (depth : Nat)

/-- One round of the loop over the named paths.  The name of no store path begins with
`tmp-`. -/
def collectPath (roots : List StorePath) (path : StorePath) : Prog Requests Unit := do
  if path ∈ roots then
    throw (.error ⟨.error,
      "cannot delete path '%1%' since it is still a garbage collector root",
      [settings.printStorePath path]⟩)
  else
    let body : Prog Requests Unit := do
      call (.invalidatePathChecked path)
      deletePath depth path
    match ← body.attempt with
    | .ok () => pure ()
    | .error (.error e) => if e.cls = .pathInUse then pure () else throw (.error e)
    | .error e => throw e

/-- `collectGarbage`, without the reserved space and the links. -/
def collectGarbage (paths : List StorePath) : Prog Requests Unit :=
  if paths = [] then pure ()
  else do
    call .lockGC
    let collect : Prog Requests Unit := do
      let roots ← call .findRoots
      paths.forM (collectPath settings depth roots)
    collect.finally' (call .unlockGC)

end Collector

/-- What a process is asked to do. -/
inductive Job where
  | addToStoreFromDump (source name : Bytes)
  | addToStore (info : ValidPathInfo) (source : Bytes)
  | collectGarbage (paths : List StorePath)

namespace Job

def program [Sha256] (settings : Settings) (depth : Nat) : Job → Prog Requests Unit
  | addToStoreFromDump source name => do
      let _ ← Adding.addToStoreFromDump settings depth source name
      pure ()
  | addToStore info source => Adding.addToStore settings depth info source
  | collectGarbage paths => Adding.collectGarbage settings depth paths

/-- Imports are imports of the path. -/
def Concerns [Sha256] (settings : Settings) (path : StorePath) : Job → Prop
  | addToStoreFromDump source name => ∀ (t : Tree) rest, t.Representable → t.height ≤ narMaxDepth →
      source = t.nar ++ rest → settings.makeContentAddressedPath name (hashString t.nar) = .ok path
  | addToStore info _ => info.path = path ∧ info.references = []
  | collectGarbage _ => True

def Collects : Job → Prop
  | collectGarbage _ => True
  | _ => False

/-- What the process holds when it begins. -/
def stage : Job → Stage
  | collectGarbage _ => .collecting
  | _ => .free none

theorem collects_of_stage {job : Job} (h : job.stage = .collecting) : job.Collects := by
  cases job with
  | collectGarbage paths => trivial
  | _ => cases h

end Job

/-! ## The collector only collects -/

section Programs

variable [Sha256] {settings : Settings} {depth : Nat} {path : StorePath} {met : Set Tree} {α β : Type}

/-- The program makes the calls of a collector. -/
def Collecting (path : StorePath) (met : Set Tree) (p : Prog Requests α) : Prop :=
  p.Meets (Importing path met) True (fun _ held => held = some .collecting) (some .collecting)

namespace Collecting

theorem done (x : Except Exception α) : Collecting path met (.done x : Prog Requests α) := rfl

theorem call {r : Request} (hpre : Allowed path met r .collecting)
    (hafter : ∀ x s', After met r .collecting x s' → s' = .collecting) :
    Collecting path met (call r) :=
  stages_last hpre fun x s' h => congrArg some (hafter x s' h)

theorem bind {p : Prog Requests α} {f : α → Prog Requests β} (h : Collecting path met p)
    (hf : ∀ a, Collecting path met (f a)) : Collecting path met (p >>= f) := by
  refine Prog.meets_bind.mpr (h.mono ?_)
  rintro (e | a) _ rfl
  · rfl
  · exact hf a

theorem attempt {p : Prog Requests α} (h : Collecting path met p) : Collecting path met p.attempt :=
  Prog.meets_attempt.mpr (h.mono fun _ _ hheld => hheld)

theorem forM {l : List β} {f : β → Prog Requests PUnit} (hf : ∀ b, Collecting path met (f b)) :
    Collecting path met (l.forM f) := by
  induction l with
  | nil => exact done _
  | cons b l ih => exact (hf b).bind fun _ => ih

end Collecting

theorem deletePath_collecting (depth : Nat) (p : StorePath) :
    Collecting path met (deletePath depth p) := by
  induction depth with
  | zero => trivial
  | succ depth ih =>
      have hremove : Collecting path met (call (.remove p)) := .call (Or.inr rfl) fun _ _ h => h
      refine hremove.bind fun more => ?_
      cases more with
      | true => exact ih
      | false => exact .done _

theorem collectPath_collecting (settings : Settings) (depth : Nat) (roots : List StorePath) (p : StorePath) :
    Collecting path met (collectPath settings depth roots p) := by
  unfold collectPath
  split
  · exact .done _
  · have hinvalidate : Collecting path met (call (.invalidatePathChecked p)) :=
      .call rfl fun _ _ h => h
    have hbody := hinvalidate.bind fun _ => deletePath_collecting depth p
    refine hbody.attempt.bind fun ended => ?_
    split
    · exact .done _
    · split
      · exact .done _
      · exact .done _
    · exact .done _

theorem collectGarbage_collecting (paths : List StorePath) :
    Collecting path met (collectGarbage settings depth paths) := by
  unfold collectGarbage
  split
  · exact .done _
  · have hlock : Collecting path met (call .lockGC) := .call rfl fun _ _ h => h
    have hroots : Collecting path met (call .findRoots) := .call rfl fun _ _ h => h
    have hunlock : Collecting path met (call .unlockGC) := .call rfl fun _ _ h => h
    have hcollect := hroots.bind fun roots =>
      Collecting.forM (l := paths) (collectPath_collecting settings depth roots)
    exact hlock.bind fun _ => hcollect.attempt.bind fun ended =>
      hunlock.attempt.bind fun _ => .done ended

theorem job_meets {job : Job} (h : job.Concerns settings path) :
    (job.program settings depth).Meets (Importing path Set.univ) True (fun _ _ => True)
      (some job.stage) := by
  cases job with
  | addToStoreFromDump source name =>
      have hsource : Expects Set.univ source fun t =>
          settings.makeContentAddressedPath name (hashString t.nar) = .ok path :=
        fun t rest ht hheight hst => ⟨trivial, h t rest ht hheight hst⟩
      refine Prog.meets_bind.mpr ((addToStoreFromDump_stages hsource).mono ?_)
      rintro (e | p) _ -
      · trivial
      · trivial
  | addToStore info source =>
      obtain ⟨rfl, hreferences⟩ := h
      exact (addToStore_stages hreferences fun t rest ht hheight hst => ⟨trivial, trivial⟩).mono
        fun _ _ _ => trivial
  | collectGarbage paths => exact (collectGarbage_collecting paths).mono fun _ _ _ => trivial

end Programs

/-! ## Runs -/

/-- Processes that import one path or collect garbage. -/
structure Processes [Sha256] (ι : Type) where
  settings : Settings
  path : StorePath
  depth : ι → Nat
  job : ι → Job
  concerns : ∀ i, (job i).Concerns settings path

namespace Processes

variable [Sha256] {ι : Type} [DecidableEq ι] (P : Processes ι)

/-- Nobody has begun, and the path, if it is registered, has its tree. -/
structure Initial (m : Machine Requests (World ι) ι Unit) : Prop where
  process : m.process = fun i => .start ((P.job i).program P.settings (P.depth i))
  sound : m.state.db.Valid P.path → ∃ t, Stored P.path m.state t

def system : TransitionSystem (Machine Requests (World ι) ι Unit) (Actor ι) :=
  machine (exec P.settings) (fun t => t.elim) (fun w w' => ∃ i, w' = w.died i) P.Initial

/-- No collector is about to remove the path while it is registered, or while an import that
has the lock has begun to put something there. -/
def Spared (m : Machine Requests (World ι) ι Unit) (a : Actor ι) : Prop :=
  ∀ i k, a = .process i → (P.job i).Collects → (m.process i).main = .op (.remove P.path) k →
    ¬ m.state.db.Valid P.path ∧ m.state.placing P.path = none

/-- `Spared`, of a call. -/
def MayCall (i : ι) (r : Request) (w : World ι) : Prop :=
  (P.job i).Collects → r = .remove P.path → ¬ w.db.Valid P.path ∧ w.placing P.path = none

/-- What a process holds before it begins. -/
def started (a : Thread ι) : Option Stage :=
  match a.2 with
  | none => some (P.job a.1).stage
  | some _ => none

/-- What holds beside what each process knows: who collects. -/
structure Inv (w : World ι) (R : Thread ι → Option Stage) : Prop where
  staged : Staged P.path Set.univ w R
  collects : ∀ i, R (i, none) = some .collecting → (P.job i).Collects

variable {P} {w w' : World ι} {R : Thread ι → Option Stage} {m : Machine Requests (World ι) ι Unit}

theorem Inv.op {a : Thread ι} {r : Request} {x : Except Exception r.Val} (h : P.Inv w R)
    (hpre : (Importing P.path Set.univ).pre r (R a)) (hmay : P.MayCall a.1 r w)
    (hexec : exec P.settings a.1 r w x w') :
    ∃ held, (Importing P.path Set.univ).post r (R a) x held ∧ P.Inv w' (Function.update R a held) := by
  obtain ⟨s, hs, hallowed⟩ := hpre
  have hmain := h.staged.main hs
  have hcareful : Careful P.path w r s := by
    rintro rfl
    exact hmay (h.collects a.1 (by rw [← hmain, hs]))
  obtain ⟨s', hafter, hstaged⟩ := h.staged.op hs hallowed hcareful hexec
  refine ⟨some s', ⟨s, s', hs, rfl, hafter⟩, hstaged, fun i hi => ?_⟩
  by_cases hia : (i, none) = a
  · subst hia
    rw [Function.update_self] at hi
    -- only a collector collects
    by_contra hnot
    have hne : s ≠ .collecting := fun hcollecting => hnot (h.collects i (by rw [hs, hcollecting]))
    exact importing_after hne hallowed hafter (Option.some.inj hi)
  · rw [Function.update_of_ne hia] at hi
    exact h.collects i hi

theorem inv_of_reachable (h : (P.system.restrict P.Spared).Reachable m) : ∃ R, P.Inv m.state R := by
  have hnone : ∀ m, P.Initial m → ∀ i, (m.process i).tasks = fun _ => none := by
    intro m hm i
    rw [hm.process]
    rfl
  have hmay : ∀ m i r k, P.Spared m (.process i) → (m.process i).main = .op r k →
      P.MayCall i r m.state := by
    rintro m i _ k hspared hmain hcollects rfl
    exact hspared i k rfl hcollects hmain
  have hreach := reachable_of_restrict hnone hmay h
  have hup : Upholds (fun i r w x w' => P.MayCall i r w ∧ exec P.settings i r w x w')
      (fun w w' => ∃ i, w' = w.died i) (Importing P.path Set.univ) none P.Inv :=
    { op := fun w R a r x w' hinv hpre hexec => hinv.op hpre hexec.1 hexec.2
      fork := fun _ _ _ _ t => isEmptyElim t
      join := fun w R i hinv _ => ⟨_, rfl, by rwa [Function.update_eq_self]⟩
      outside := by
        rintro w R _ hinv ⟨i, rfl⟩
        exact ⟨hinv.staged.died i, hinv.collects⟩ }
  have hstart : ∀ m, P.Initial m → ∃ R, P.Inv m.state R ∧
      Foundation.Kept (Importing P.path Set.univ) True none (fun _ _ _ => True) m.process R := by
    intro m hm
    have hstaged : Staged P.path Set.univ m.state P.started := by
      refine ⟨fun _ _ => rfl, ?_, fun hvalid => ?_⟩
      · rintro i _ ⟨⟩ -
        rcases hjob : P.job i with _ | _ | _
        · exact fun t ht => by cases ht
        · exact fun t ht => by cases ht
        · trivial
      · obtain ⟨t, hstored⟩ := hm.sound hvalid
        exact ⟨t, trivial, hstored⟩
    refine ⟨P.started, ⟨hstaged, fun i hi => Job.collects_of_stage (Option.some.inj hi)⟩,
      fun i => ?_, fun i n p hp => ?_, fun _ _ _ => rfl⟩
    · rw [hm.process]
      exact job_meets (P.concerns i)
    · rw [hnone m hm i] at hp
      cases hp
  obtain ⟨R, hinv, -⟩ := machine_meets hup (fun t => isEmptyElim t) hstart hreach
  exact ⟨R, hinv⟩

end Processes

section TooLate

variable [Sha256] {settings : Settings} {ι : Type} [DecidableEq ι] {i : ι} {w w' : World ι}
  {path : StorePath}

/-- No call roots anything, and whoever makes one stays alive. -/
theorem does_keeps {r : Request} {x : Except Exception r.Val} (h : Does settings i r w x w') :
    w'.roots = w.roots ∧ w'.dead = w.dead := by
  cases r with
  | restorePath place source =>
      have hplaced : ∃ c, w' = w.restore i place c := by
        rcases h with ⟨_, _, _, _, -, -, -, rfl⟩ | ⟨-, c, rfl⟩
        · exact ⟨_, rfl⟩
        · exact ⟨_, rfl⟩
      obtain ⟨c, rfl⟩ := hplaced
      cases place <;> exact ⟨rfl, rfl⟩
  | createTempDirInStore => rcases h with ⟨-, rfl⟩ | ⟨-, rfl⟩ <;> exact ⟨rfl, rfl⟩
  | deleteTempDir => rcases h with ⟨-, rfl⟩ | ⟨-, c, rfl⟩ <;> exact ⟨rfl, rfl⟩
  | lockPath p => rcases h with ⟨-, -, rfl⟩ | ⟨-, rfl⟩ <;> exact ⟨rfl, rfl⟩
  | unlockPath p deletion => rcases h with ⟨-, rfl⟩ | ⟨-, rfl | rfl⟩ <;> exact ⟨rfl, rfl⟩
  | remove p => rcases h with ⟨-, rfl⟩ | ⟨-, c, -, rfl⟩ <;> exact ⟨rfl, rfl⟩
  | moveFile p => rcases h with ⟨-, rfl | rfl⟩ | ⟨-, c, c', rfl⟩ <;> exact ⟨rfl, rfl⟩
  | registerValidPath info => rcases h with ⟨_, _, _, -, -, -, rfl⟩ | ⟨-, rfl⟩ <;> exact ⟨rfl, rfl⟩
  | lockGC => rcases h with ⟨-, -, rfl⟩ | ⟨-, rfl⟩ <;> exact ⟨rfl, rfl⟩
  | unlockGC => rcases h with ⟨-, rfl⟩ | ⟨-, rfl⟩ <;> exact ⟨rfl, rfl⟩
  | invalidatePathChecked p => rcases h with ⟨db, -, -, rfl⟩ | ⟨-, rfl⟩ <;> exact ⟨rfl, rfl⟩
  | dirGrantsDefaultAcl =>
      obtain rfl := h
      exact ⟨rfl, rfl⟩
  | optimisePath p =>
      obtain rfl := h
      exact ⟨rfl, rfl⟩
  | sync p =>
      obtain rfl := h
      exact ⟨rfl, rfl⟩
  | _ =>
      obtain rfl := h.2
      exact ⟨rfl, rfl⟩

theorem steps_keeps {α : Type} {p p' : Prog Requests α} (h : Prog.Steps (exec settings i) w p w' p') :
    w'.roots = w.roots ∧ w'.dead = w.dead := by
  refine h.preserves (P := fun v => v.roots = w.roots ∧ v.dead = w.dead) ?_ ⟨rfl, rfl⟩
  rintro v r x v' ⟨hroots, hdead⟩ ⟨-, hdoes⟩
  obtain ⟨hroots', hdead'⟩ := does_keeps hdoes
  exact ⟨hroots'.trans hroots, hdead'.trans hdead⟩

/-- A collector that has found the path not valid goes on to remove it, whatever has happened
meanwhile. -/
theorem collectGarbage_pauses (depth : Nat) (halive : i ∉ w.dead) (hgc : w.gcHolder = none)
    (hroots : path ∉ w.roots) (hnew : w.db.isValidPath_ path = false) :
    ∃ paused, Prog.Steps (exec settings i) w (collectGarbage settings (depth + 1) [path])
        { w with gcHolder := some i } paused ∧
      ∀ v : World ι, i ∉ v.dead → ∃ v', Prog.Ends (exec settings i) v paused (.ok ()) v' ∧
        v'.db = v.db ∧ v'.contents path = .nothing := by
  let locked : World ι := { w with gcHolder := some i }
  have hlock : Does settings i .lockGC w (.ok ()) locked := Or.inl ⟨rfl, hgc, rfl⟩
  have hfind : Does settings i .findRoots locked (.ok w.roots) locked := ⟨Or.inl rfl, rfl⟩
  have hinvalid : Does settings i (.invalidatePathChecked path) locked (.ok ()) locked :=
    Or.inl ⟨w.db, by simp [Database.invalidatePathChecked, locked, hnew], rfl, rfl⟩
  have halive' : i ∉ locked.dead := halive
  have hbody : Prog.Steps (exec settings i) locked
      (call (.invalidatePathChecked path) >>= fun _ => deletePath (depth + 1) path) locked
      (deletePath (depth + 1) path) := (ends_call halive' hinvalid).before _
  obtain ⟨after, hround, hafter⟩ : ∃ after : Except Exception Unit → Prog Requests Unit,
      Prog.Steps (exec settings i) locked (collectPath settings (depth + 1) w.roots path) locked
        ((deletePath (depth + 1) path).attempt.bind after) ∧ after (.ok ()) = .done (.ok ()) := by
    rw [collectPath, if_neg hroots]
    exact ⟨_, hbody.attempt.bind _, rfl⟩
  have hcollect := (ends_call halive' hfind).before
    fun roots => [path].forM (collectPath settings (depth + 1) roots)
  have hpaused := hcollect.trans (hround.bind fun _ => List.forM [] (collectPath settings (depth + 1) w.roots))
  let rest : Prog Requests Unit := ((deletePath (depth + 1) path).attempt.bind after).bind fun _ =>
    List.forM [] (collectPath settings (depth + 1) w.roots)
  refine ⟨rest.finally' (call .unlockGC), ?_, fun v hv => ?_⟩
  · rw [collectGarbage, if_neg (by simp)]
    exact ((ends_call halive hlock).before _).trans (hpaused.attempt.bind _)
  · obtain ⟨v₁, hv₁⟩ : ∃ v₁, v₁ = v.put i (.realPath path) .nothing := ⟨_, rfl⟩
    have hremove : Does settings i (.remove path) v (.ok false) v₁ := Or.inl ⟨rfl, hv₁⟩
    have hdelete : Prog.Ends (exec settings i) v (deletePath (depth + 1) path) (.ok ()) v₁ :=
      (ends_call hv hremove).bind (.refl _ _)
    have hrest : Prog.Ends (exec settings i) v rest (.ok ()) v₁ :=
      (hdelete.attempt.bind (by rw [hafter]; exact .refl _ _)).bind (.refl _ _)
    have hunlock : Does settings i .unlockGC v₁ (.ok ())
        { v₁ with gcHolder := if v₁.gcHolder = some i then none else v₁.gcHolder } := Or.inl ⟨rfl, rfl⟩
    have hv' : i ∉ v₁.dead := by rwa [hv₁]
    refine ⟨_, hrest.finally' (ends_call hv' hunlock), ?_, ?_⟩
    · rw [hv₁]
      rfl
    · rw [hv₁]
      exact Function.update_self ..

end TooLate

namespace Example

/-- An empty file, imported by one process while another collects its path. -/
theorem importer_and_collector [Sha256] : ∃ P : Processes Bool,
    P.settings = settings ∧ P.depth = (fun _ => 1) ∧ P.job false = .collectGarbage [P.path] ∧
      P.job true = .addToStoreFromDump (Tree.regular false []).nar (str "x") ∧
      P.settings.makeContentAddressedPath (str "x") (hashString (Tree.regular false []).nar) = .ok P.path := by
  let t : Tree := .regular false []
  obtain ⟨path, hpath, -⟩ := settings.makeStorePath_of_checkName (str "source")
    (hashString t.nar).base16 (show checkName (str "x") = .ok () by decide)
  have ht : t.Representable := .regular false (by decide)
  have hconcerns : (Job.addToStoreFromDump t.nar (str "x")).Concerns settings path := by
    intro u rest hu hheight hsource
    have hparse := parseIntoMemory_nar [] .whole hu hheight rest
    have hown := parseIntoMemory_nar [] .whole ht (by decide) []
    rw [← hsource, ← List.append_nil t.nar, hown] at hparse
    simp only [Except.ok.injEq, Prod.mk.injEq, Option.some.injEq] at hparse
    rw [← hparse.1]
    exact hpath
  let job : Bool → Job := fun i =>
    if i then .addToStoreFromDump t.nar (str "x") else .collectGarbage [path]
  refine ⟨⟨settings, path, fun _ => 1, job, fun i => ?_⟩, rfl, rfl, rfl, rfl, hpath⟩
  cases i with
  | true => exact hconcerns
  | false => trivial

/-- Nobody has begun, in a new store. -/
def start [Sha256] (P : Processes Bool) : Machine Requests (World Bool) Bool Unit :=
  ⟨emptyWorld Bool, fun i => .start ((P.job i).program P.settings (P.depth i))⟩

theorem not_valid_empty (path : StorePath) : Database.empty.isValidPath_ path = false := by
  simp [Database.isValidPath_, Database.queryPathInfo, Database.empty]

theorem start_initial [Sha256] (P : Processes Bool) : P.Initial (start P) :=
  ⟨rfl, fun hvalid => by simp [Database.Valid, start, emptyWorld, not_valid_empty] at hvalid⟩

end Example

end Adding
end Store
end Archinix
