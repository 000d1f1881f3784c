import Archinix.Store.ImportInvariant

/-!
# Concurrent importers of one path

Any number of processes run `addToStoreFromDump` on archives with the same store path; each
may throw at any call, or die.  `importers_agree` says what holds of every run.
-/

namespace Archinix
namespace Store
namespace Adding

open Foundation Util

/-- Processes with archives of one store path, on a store where the path, if it is valid, has
the tree `stored`. -/
structure Importers [Sha256] (ι : Type) where
  settings : Settings
  path : StorePath
  depth : ι → Nat
  name : ι → Bytes
  tree : ι → Tree
  /-- What follows the archive in the stream. -/
  rest : ι → Bytes
  stored : Option Tree
  representable : ∀ i, (tree i).Representable
  height : ∀ i, (tree i).height ≤ narMaxDepth
  path_eq : ∀ i, settings.makeContentAddressedPath (name i) (hashString (tree i).nar) = .ok path
  stored_eq : ∀ t, stored = some t →
    settings.makeContentAddressedPath path.name (hashString t.nar) = .ok path

namespace Importers

variable [Sha256] {ι : Type} [DecidableEq ι] (I : Importers ι)

def source (i : ι) : Bytes := (I.tree i).nar ++ I.rest i

/-- The trees there are. -/
def trees : Set Tree := {t | (∃ i, t = I.tree i) ∨ I.stored = some t}

/-- Nobody has begun; the store is intact as far as the path goes. -/
structure Initial (m : Machine Requests (World ι) ι StorePath) : Prop where
  process : m.process = fun i =>
    .start (addToStoreFromDump I.settings (I.depth i) (I.source i) (I.name i))
  inserted : m.state.inserted I.path = 0
  sound : m.state.db.Valid I.path → ∃ t, I.stored = some t ∧ Stored I.path m.state t

def system : TransitionSystem (Machine Requests (World ι) ι StorePath) (Actor ι) :=
  machine (exec I.settings) (fun t => t.elim) (fun w w' => ∃ i, w' = w.died i) I.Initial

/-- What holds beside what each process knows. -/
structure Inv (w : World ι) (R : Thread ι → Option Stage) : Prop where
  staged : Staged I.path I.trees w R
  importing : ∀ a, R a ≠ some .collecting
  settled : ∀ a, R a = some .settled → w.db.Valid I.path
  once : w.inserted I.path ≤ 1
  never : ¬ w.db.Valid I.path → w.inserted I.path = 0

variable {I} {w w' : World ι} {R : Thread ι → Option Stage} {m : Machine Requests (World ι) ι StorePath}

/-- What one allowed call does to the path. -/
theorem Inv.effect {a : Thread ι} {r : Request} {x : Except Exception r.Val} (h : I.Inv w R)
    (hpre : (Importing I.path I.trees).pre r (R a)) (hexec : exec I.settings a.1 r w x w') :
    ∃ s, R a = some s ∧ s ≠ .collecting ∧ Allowed I.path I.trees r s ∧
      Knows I.path I.trees w a.1 s ∧ Effect I.path I.trees s w w' := by
  obtain ⟨s, hs, hallowed⟩ := hpre
  have hne : s ≠ .collecting := fun hcollecting => h.importing a (by rw [hs, hcollecting])
  have hmain := h.staged.main hs
  have hknows := h.staged.knows a.1 s (by rw [← hmain, hs]) hexec.1
  have hcareful : Careful I.path w r s := fun hcollecting => absurd hcollecting hne
  exact ⟨s, hs, hne, hallowed, hknows, does_effect hknows hallowed hcareful hexec.2⟩

theorem Inv.op {a : Thread ι} {r : Request} {x : Except Exception r.Val} (h : I.Inv w R)
    (hpre : (Importing I.path I.trees).pre r (R a)) (hexec : exec I.settings a.1 r w x w') :
    ∃ held, (Importing I.path I.trees).post r (R a) x held ∧ I.Inv w' (Function.update R a held) := by
  obtain ⟨s, hs, hne, hallowed, hknows, heffect⟩ := h.effect hpre hexec
  obtain ⟨s', hafter, hstaged⟩ :=
    h.staged.op hs hallowed (fun hcollecting => absurd hcollecting hne) hexec
  refine ⟨some s', ⟨s, s', hs, rfl, hafter⟩, hstaged, fun b => ?_, fun b hb => ?_, ?_, fun hnew => ?_⟩
  · by_cases hba : b = a
    · subst hba
      rw [Function.update_self]
      exact fun hcollecting => importing_after hne hallowed hafter (Option.some.inj hcollecting)
    · rw [Function.update_of_ne hba]
      exact h.importing b
  · by_cases hba : b = a
    · subst hba
      rw [Function.update_self] at hb
      obtain rfl := Option.some.inj hb
      by_cases hsettled : s = .settled
      · exact heffect.valid hne (h.settled b (by rw [hs, hsettled]))
      · exact settled_after hsettled hknows hallowed hafter hexec.2
    · rw [Function.update_of_ne hba] at hb
      exact heffect.valid hne (h.settled b hb)
  · cases heffect with
    | same _ _ hinserted => exact hinserted ▸ h.once
    | changed _ _ hinserted => exact hinserted ▸ h.once
    | registered hnew _ hinserted => rw [hinserted, h.never hnew]
    | invalidated hcollecting => exact absurd hcollecting hne
    | elsewhere hcollecting => exact absurd hcollecting hne
  · cases heffect with
    | same hdb _ hinserted => exact hinserted.trans (h.never (hdb ▸ hnew))
    | changed hdb _ hinserted => exact hinserted.trans (h.never (hdb ▸ hnew))
    | registered _ hstored _ =>
        obtain ⟨t, -, hstored⟩ := hstored
        exact absurd hstored.valid hnew
    | invalidated hcollecting => exact absurd hcollecting hne
    | elsewhere hcollecting => exact absurd hcollecting hne

theorem Inv.died (h : I.Inv w R) (i : ι) : I.Inv (w.died i) R :=
  ⟨h.staged.died i, h.importing, h.settled, h.once, h.never⟩

/-- What a process holds before it begins. -/
def started (a : Thread ι) : Option Stage :=
  match a.2 with
  | none => some (.free none)
  | some _ => none

/-- How an import ends. -/
def Ended (I : Importers ι) (x : Except Exception StorePath) (held : Option Stage) : Prop :=
  Leaves (· = .settled) x held ∧ ∀ p, x = .ok p → p = I.path

omit [DecidableEq ι] in
theorem expects (I : Importers ι) (i : ι) : Expects I.trees (I.source i) fun t =>
    I.settings.makeContentAddressedPath (I.name i) (hashString t.nar) = .ok I.path := by
  intro t rest ht hheight hsource
  have hparse := parseIntoMemory_nar [] .whole ht hheight rest
  rw [← hsource, source, parseIntoMemory_nar [] .whole (I.representable i) (I.height i)] at hparse
  simp only [Except.ok.injEq, Prod.mk.injEq, Option.some.injEq] at hparse
  obtain ⟨rfl, -⟩ := hparse
  exact ⟨Or.inl ⟨i, rfl⟩, I.path_eq i⟩

/-- The invariant and the contract hold in every state reached. -/
theorem inv_of_reachable (h : I.system.Reachable m) :
    ∃ R, I.Inv m.state R ∧ Foundation.Kept (Importing I.path I.trees) True none (fun _ => I.Ended) m.process R := by
  have hup : Upholds (exec I.settings) (fun w w' => ∃ i, w' = w.died i)
      (Importing I.path I.trees) none I.Inv :=
    { op := fun w R a r x w' hinv hpre hexec => hinv.op hpre hexec
      fork := fun _ _ _ _ t => isEmptyElim t
      join := fun w R i hinv _ => ⟨_, rfl, by rwa [Function.update_eq_self]⟩
      outside := fun w R w' hinv ⟨i, hdied⟩ => hdied ▸ hinv.died i }
  have hstart : ∀ m, I.Initial m → ∃ R, I.Inv m.state R ∧
      Foundation.Kept (Importing I.path I.trees) True none (fun _ => I.Ended) m.process R := by
    intro m hm
    have hstaged : Staged I.path I.trees m.state started := by
      refine ⟨fun _ _ => rfl, ?_, fun hvalid => ?_⟩
      · rintro i _ ⟨⟩ -
        exact fun t ht => by cases ht
      · obtain ⟨t, ht, hstored⟩ := hm.sound hvalid
        exact ⟨t, Or.inr ht, hstored⟩
    refine ⟨started, ⟨hstaged, ?_, ?_, by simp [hm.inserted], fun _ => hm.inserted⟩,
      ⟨fun i => ?_, fun i n p hp => ?_, fun _ _ _ => rfl⟩⟩
    · rintro ⟨i, - | n⟩ <;> simp [started]
    · rintro ⟨i, - | n⟩ <;> simp [started]
    · rw [hm.process]
      exact addToStoreFromDump_stages (I.expects i)
    · rw [hm.process] at hp
      cases hp
  exact machine_meets hup (fun t => isEmptyElim t) hstart h

/-- While the path is valid, no step changes the database or what lies there. -/
theorem settled_step {a : Actor ι} {m' : Machine Requests (World ι) ι StorePath}
    (hinv : I.Inv m.state R)
    (hkept : Foundation.Kept (Importing I.path I.trees) True none (fun _ => I.Ended) m.process R)
    (hvalid : m.state.db.Valid I.path) (hstep : I.system.step m a m') :
    m'.state.db = m.state.db ∧ m'.state.contents I.path = m.state.contents I.path := by
  cases a with
  | process i =>
      obtain ⟨p, hproc, -⟩ := hstep
      rcases hkept.step_cases hproc with hsame | ⟨b, r, x, rfl, hpre, hexec⟩
      · rw [hsame]
        exact ⟨rfl, rfl⟩
      · obtain ⟨s, -, hne, -, -, heffect⟩ := hinv.effect hpre hexec
        cases heffect with
        | same hdb hcontents _ => exact ⟨hdb, hcontents⟩
        | changed _ hnew _ => exact absurd hvalid hnew
        | registered hnew _ _ => exact absurd hvalid hnew
        | invalidated hcollecting => exact absurd hcollecting hne
        | elsewhere hcollecting => exact absurd hcollecting hne
  | outside =>
      obtain ⟨⟨i, hdied⟩, -⟩ := hstep
      rw [hdied]
      exact ⟨rfl, rfl⟩

theorem settled_run {m' : Machine Requests (World ι) ι StorePath} {ls : List (Actor ι)}
    (h : I.system.Reachable m) (hvalid : m.state.db.Valid I.path) (hrun : I.system.Run m ls m') :
    I.system.Reachable m' ∧ m'.state.db = m.state.db ∧
      m'.state.contents I.path = m.state.contents I.path := by
  refine hrun.preserves (P := fun n => I.system.Reachable n ∧ n.state.db = m.state.db ∧
    n.state.contents I.path = m.state.contents I.path) ?_ ⟨h, rfl, rfl⟩
  rintro n a n' ⟨hn, hdb, hcontents⟩ hstep
  obtain ⟨R, hinv, hkept⟩ := inv_of_reachable hn
  obtain ⟨hdb', hcontents'⟩ := settled_step hinv hkept (hdb ▸ hvalid) hstep
  exact ⟨hn.step hstep, hdb'.trans hdb, hcontents'.trans hcontents⟩

/-- Trees with one path are one tree. -/
def CollisionFree (I : Importers ι) : Prop :=
  ∀ t ∈ I.trees, ∀ u ∈ I.trees,
    I.settings.makeContentAddressedPath I.path.name (hashString t.nar) =
      I.settings.makeContentAddressedPath I.path.name (hashString u.nar) → t = u

omit [DecidableEq ι] in
theorem path_of_trees {t : Tree} (h : t ∈ I.trees) :
    I.settings.makeContentAddressedPath I.path.name (hashString t.nar) = .ok I.path := by
  rcases h with ⟨i, rfl⟩ | h
  · rw [I.settings.name_of_makeStorePath (I.path_eq i)]
    exact I.path_eq i
  · exact I.stored_eq t h

end Importers

open Importers

/-- However many processes import archives with one store path, and however their calls
interleave, throw or end with the death of the process: `deletePath` removes nothing at the
path while it is registered; the path is inserted at most once; a process that returns
returns the path, which then is registered with its tree, that of the process itself if the
archives are the same; and once the path is registered, nothing more is changed. -/
theorem importers_agree [Sha256] {ι : Type} [DecidableEq ι] (I : Importers ι)
    {m : Machine Requests (World ι) ι StorePath}
    (h : I.system.Reachable m) :
    (∀ i path k, (m.process i).main = .op (.remove path) k → i ∉ m.state.dead →
      path = I.path ∧ ¬ m.state.db.Valid path) ∧
    m.state.inserted I.path ≤ 1 ∧
    (∀ i p, (m.process i).main = .done (.ok p) → p = I.path ∧
      ∃ t ∈ I.trees, Stored I.path m.state t ∧ (I.CollisionFree → t = I.tree i)) ∧
    (m.state.db.Valid I.path → ∀ ls m', I.system.Run m ls m' →
      m'.state.db = m.state.db ∧ m'.state.contents I.path = m.state.contents I.path) := by
  obtain ⟨R, hinv, hkept⟩ := inv_of_reachable h
  refine ⟨fun i path k hop halive => ?_, hinv.once, fun i p hdone => ?_, fun hvalid ls m' hrun => ?_⟩
  · have hmain := hkept.main i
    rw [hop] at hmain
    obtain ⟨⟨s, hs, ⟨rfl, temp, rfl⟩ | rfl⟩, -⟩ := hmain
    · exact ⟨rfl, (hinv.staged.knows i _ hs halive).2.1⟩
    · exact absurd hs (hinv.importing _)
  · have hmain := hkept.main i
    rw [hdone] at hmain
    obtain ⟨⟨s, hs, -, hsettled⟩, hpath⟩ := hmain
    obtain ⟨t, ht, hstored⟩ := hinv.staged.sound (hinv.settled (i, none) (by rw [hs, hsettled p rfl]))
    have hown : I.tree i ∈ I.trees := Or.inl ⟨i, rfl⟩
    exact ⟨hpath p rfl, t, ht, hstored,
      fun hfree => hfree t ht _ hown ((path_of_trees ht).trans (path_of_trees hown).symm)⟩
  · exact (settled_run h hvalid hrun).2

namespace Example

def settings : Settings := ⟨.nixStore, false⟩

/-- A new store. -/
def emptyWorld (ι : Type) : World ι where
  db := .empty
  contents _ := .nothing
  temp _ := .nothing
  holder _ := none
  placing _ := none
  gcHolder := none
  roots := []
  inserted _ := 0
  dead := ∅

end Example

/-- Two processes import an empty file, and one of them has returned. -/
theorem importers_agree_example : ∃ (_ : Sha256) (I : Importers Bool)
    (m : Machine Requests (World Bool) Bool StorePath), I.system.Reachable m ∧
      (m.process true).main = .done (.ok I.path) ∧ ∃ t ∈ I.trees, Stored I.path m.state t := by
  let sha256 : Sha256 := .ofTable [] fun _ h => by cases h
  let t : Tree := .regular false []
  obtain ⟨path, hpath, -⟩ := Example.settings.makeStorePath_of_checkName (str "source")
    (hashString t.nar).base16 (show checkName (str "x") = .ok () by decide)
  have ht : t.Representable := .regular false (by decide)
  let I : Importers Bool :=
    { settings := Example.settings, path, depth := fun _ => 1, name := fun _ => str "x"
      tree := fun _ => t, rest := fun _ => [], stored := none, representable := fun _ => ht
      height := fun _ => by decide, path_eq := fun _ => hpath, stored_eq := fun _ h => by cases h }
  let start : Machine Requests (World Bool) Bool StorePath :=
    ⟨Example.emptyWorld Bool, fun i =>
      .start (addToStoreFromDump I.settings (I.depth i) (I.source i) (I.name i))⟩
  have hstart : I.system.Reachable start :=
    .of_init ⟨rfl, rfl, fun hvalid => absurd hvalid (by simp [Database.Valid, start,
      Example.emptyWorld, Database.isValidPath_, Database.queryPathInfo, Database.empty])⟩
  obtain ⟨w', hends, -⟩ := addToStoreFromDump_ends (i := true) (w := Example.emptyWorld Bool) 0 []
    ht (by decide) (by simp [Example.emptyWorld]) hpath rfl
  have hreach := Prog.Steps.reachable (i := true) hstart hends
  have hdone := (importers_agree I hreach).2.2.1 true path (by simp)
  obtain ⟨-, u, hu, hstored, -⟩ := hdone
  exact ⟨sha256, I, _, hreach, by simp [I], u, hu, hstored⟩

end Adding
end Store
end Archinix
