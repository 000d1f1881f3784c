import Archinix.Store.StoreIntegrity

/-!
# Registered paths are intact

`registered_intact` is about any number of processes at once.  It has to assume that no collector
removes what is registered or being put in its place; a process on its own never does
(`Tidies`), so `intact_in_turn` assumes nothing.
-/

namespace Archinix
namespace Store
namespace Adding

open Foundation Util Exporting

/-! ## A process on its own -/

section Tidy

/-- What is known after a call: `gone` if the path has been found not to be registered, or made
so. -/
def Finds (path : StorePath) : (r : Request) → Except Exception r.Val → Bool → Bool → Prop
  | .isValidPath p, .ok false, gone, gone' => gone' = (gone || p = path)
  | .invalidatePathChecked p, .ok _, gone, gone' => gone' = (gone || p = path)
  | .registerValidPath _, .ok _, _, gone' => gone' = false
  | _, _, gone, gone' => gone' = gone

/-- The contract of a process that removes nothing at the path without looking. -/
def Tidy (path : StorePath) : Contract Requests (Option Bool) where
  pre r held := ∃ gone, held = some gone ∧ (r = .remove path → gone = true)
  post r held x held' := ∃ gone gone', held = some gone ∧ held' = some gone' ∧ Finds path r x gone gone'
  fork _ _ _ _ := False
  join held held' := held' = held

variable {settings : Settings} {reads : ReadSizes} {depth : Nat} {path p : StorePath} {α β : Type}

/-- Nothing is removed at the path without looking; `known` is what is known before. -/
def Tidies (path : StorePath) (known : Bool) (p : Prog Requests α) : Prop :=
  ∀ gone, (known = true → gone = true) →
    p.Meets (Tidy path) True (fun _ held => held ≠ none) (some gone)

namespace Tidies

theorem weaken {p : Prog Requests α} (h : Tidies path false p) (known : Bool) :
    Tidies path known p := fun gone _ => h gone Bool.noConfusion

theorem done (x : Except Exception α) : Tidies path false (.done x : Prog Requests α) :=
  fun _ _ => by simp

theorem bind {p : Prog Requests α} {f : α → Prog Requests β} {known : Bool} (h : Tidies path known p)
    (hf : ∀ a, Tidies path false (f a)) : Tidies path known (p >>= f) := by
  refine fun gone hgone => Prog.meets_bind.mpr ((h gone hgone).mono ?_)
  rintro (e | a) (- | gone') hheld
  · exact hheld
  · exact hheld
  · exact absurd rfl hheld
  · exact hf a gone' Bool.noConfusion

theorem attempt {p : Prog Requests α} {known : Bool} (h : Tidies path known p) :
    Tidies path known p.attempt :=
  fun gone hgone => Prog.meets_attempt.mpr ((h gone hgone).mono fun _ _ hheld => hheld)

theorem finally' {p : Prog Requests α} {cleanup : Prog Requests Unit} (h : Tidies path false p)
    (hcleanup : Tidies path false cleanup) : Tidies path false (p.finally' cleanup) :=
  h.attempt.bind fun ended => hcleanup.attempt.bind fun _ => done ended

theorem forM {l : List β} {f : β → Prog Requests PUnit} (hf : ∀ b, Tidies path false (f b)) :
    Tidies path false (l.forM f) := by
  induction l with
  | nil => exact done _
  | cons b l ih => exact (hf b).bind fun _ => ih

theorem call {r : Request} (h : r ≠ .remove path) : Tidies path false (call r) :=
  fun gone _ => ⟨⟨gone, rfl, fun hremove => absurd hremove h⟩, fun _ _ ⟨_, _, _, hheld, _⟩ => by simp [hheld]⟩

/-- A call, and what it finds. -/
theorem call_then {r : Request} {f : r.Val → Prog Requests β} {gone : Bool}
    (hremove : r = .remove path → gone = true)
    (hok : ∀ v gone', Finds path r (.ok v) gone gone' →
      (f v).Meets (Tidy path) True (fun _ held => held ≠ none) (some gone')) :
    (Adding.call r >>= f).Meets (Tidy path) True (fun _ held => held ≠ none) (some gone) := by
  refine meets_call ⟨gone, rfl, hremove⟩ ?_ ?_
  · rintro v _ ⟨_, gone', ⟨⟩, rfl, hfinds⟩
    exact hok v gone' hfinds
  · rintro e _ ⟨_, gone', -, rfl, -⟩
    simp

/-- The removals of `deletePath` change nothing about what is known. -/
theorem deletePath (depth : Nat) (p : StorePath) : Tidies path (p = path) (deletePath depth p) := by
  induction depth with
  | zero => exact fun _ _ => trivial
  | succ depth ih =>
      intro gone hgone
      refine call_then ?_ ?_
      · rintro ⟨⟩
        exact hgone (by simp)
      · rintro more gone' hsame
        obtain rfl : gone' = gone := hsame
        cases more with
        | true => exact ih gone' hgone
        | false => exact Option.some_ne_none _

theorem unlessValid {body : Prog Requests Unit} (hbody : Tidies path (p = path) body) :
    Tidies path false (unlessValid p body) := by
  intro gone _
  refine call_then (fun hremove => by cases hremove) ?_
  intro valid gone' hafter
  cases valid with
  | true => exact Option.some_ne_none _
  | false =>
      obtain rfl : gone' = (gone || p = path) := hafter
      exact hbody _ fun hp => by simp [hp]

theorem locked {body : Prog Requests Unit} (hbody : Tidies path false body) :
    Tidies path false (locked p body) := by
  have hlock : Tidies path false (Adding.call (.lockPath p)) := call (by simp)
  have hunlock : ∀ deletion, Tidies path false (Adding.call (.unlockPath p deletion)) :=
    fun _ => call (by simp)
  exact hlock.bind fun _ => hbody.attempt.bind fun ended =>
    (hunlock ended.isOk).attempt.bind fun _ => done ended

theorem finishPath (p : StorePath) (canonicalRestore : Bool) :
    Tidies path false (finishPath settings p canonicalRestore) := by
  have hcanonicalise : Tidies path false (Adding.call (.canonicalise p !canonicalRestore)) :=
    call (by simp)
  have hoptimise : Tidies path false (Adding.call (.optimisePath p)) := call (by simp)
  refine hcanonicalise.bind fun _ => hoptimise.bind fun _ => ?_
  split
  · exact call (by simp)
  · exact done _

theorem collectPath (roots : List StorePath) (p : StorePath) :
    Tidies path false (collectPath settings depth roots p) := by
  have hbody : Tidies path false
      (Adding.call (.invalidatePathChecked p) >>= fun _ => Adding.deletePath depth p) := by
    intro gone _
    refine call_then (fun hremove => by cases hremove) ?_
    intro _ gone' hafter
    obtain rfl : gone' = (gone || p = path) := hafter
    exact deletePath depth p _ fun hp => by simp [hp]
  unfold Adding.collectPath
  split
  · exact done _
  · refine hbody.attempt.bind fun ended => ?_
    split
    · exact done _
    · split
      · exact done _
      · exact done _
    · exact done _

theorem collectGarbage (paths : List StorePath) :
    Tidies path false (collectGarbage settings depth paths) := by
  have hlock : Tidies path false (Adding.call .lockGC) := call (by simp)
  have hroots : Tidies path false (Adding.call .findRoots) := call (by simp)
  have hunlock : Tidies path false (Adding.call .unlockGC) := call (by simp)
  unfold Adding.collectGarbage
  split
  · exact done _
  · exact hlock.bind fun _ => (hroots.bind fun roots => forM fun p => collectPath roots p).finally' hunlock

section Operations

variable [Sha256]

theorem addToStore (info : ValidPathInfo) (source : Bytes) :
    Tidies path false (addToStore settings depth info source) := by
  have hacl : Tidies path false (Adding.call .dirGrantsDefaultAcl) := call (by simp)
  have hrestore : Tidies path false (Adding.call (.restorePath (.realPath info.path) source)) :=
    call (by simp)
  have hregister : Tidies path false (Adding.call (.registerValidPath info)) := call (by simp)
  have hplace : Tidies path (info.path = path) (placeFrom settings depth info source) := by
    refine (deletePath depth info.path).bind fun _ => hacl.bind fun acl => hrestore.bind fun read => ?_
    show Tidies path false (if _ then _ else if _ then _ else _)
    split
    · exact done _
    · split
      · exact done _
      · exact (finishPath info.path !acl).bind fun _ => hregister
  exact unlessValid ((locked (unlessValid hplace)).weaken _)

theorem addToStoreFromDump (source name : Bytes) :
    Tidies path false (addToStoreFromDump settings depth source name) := by
  have hacl : Tidies path false (Adding.call .dirGrantsDefaultAcl) := call (by simp)
  have hcreate : Tidies path false (Adding.call .createTempDirInStore) := call (by simp)
  have hdelete : Tidies path false (Adding.call .deleteTempDir) := call (by simp)
  have hrestore : Tidies path false (Adding.call (.restorePath .temp source)) := call (by simp)
  have hplace : ∀ canonicalRestore hash dst, Tidies path (dst = path)
      (FromDump.place settings depth name canonicalRestore hash dst) := by
    intro canonicalRestore hash dst
    have hmove : Tidies path false (Adding.call (.moveFile dst)) := call (by simp)
    exact (deletePath depth dst).bind fun _ => hmove.bind fun _ =>
      (finishPath dst canonicalRestore).bind fun _ => (done _).bind fun _ => call (by simp)
  refine hacl.bind fun acl => hcreate.bind fun _ => finally' (hrestore.bind fun read => ?_) hdelete
  have hhash : Tidies path false (Adding.call (.finishHash read.1)) := call (by simp)
  exact hhash.bind fun hash => (done _).bind fun dst =>
    (unlessValid ((locked (unlessValid (hplace _ hash dst))).weaken _)).bind fun _ => done _

theorem importRounds (rounds : Nat) (source : Bytes) :
    Tidies path false (importRounds settings reads depth rounds source) := by
  induction rounds generalizing source with
  | zero => exact done _
  | succ rounds ih =>
      rcases hnext : nextRecord settings reads source with e | ⟨r, rest⟩
      · simp only [Adding.importRounds, hnext]
        exact done _
      · simp only [Adding.importRounds, hnext]
        rcases r with - | ⟨info, saved⟩
        · exact done _
        · exact (addToStore info saved).bind fun _ => (ih rest).bind fun _ => done _

theorem inTurn (operations : List Operation) :
    Tidies path false (Operation.inTurn settings reads depth operations) := by
  refine forM fun o => ?_
  have hprogram : Tidies path false (o.program settings reads depth) := by
    cases o with
    | addToStoreFromDump source name => exact (addToStoreFromDump source name).bind fun _ => done _
    | importVerified source => exact (importRounds source.length source).bind fun _ => done _
    | collectGarbage paths => exact collectGarbage paths
  exact hprogram.attempt.bind fun _ => done _

end Operations

end Tidies

end Tidy

namespace Users

variable [Sha256] {U : Users Unit} {path : StorePath} {m : Machine Requests (World Unit) Unit PUnit}

/-- What the one process has found out is so. -/
structure Looked (path : StorePath) (w : World Unit) (R : Thread Unit → Option Bool) : Prop where
  tasks : ∀ n, R ((), some n) = none
  gone : R ((), none) = some true → ¬ w.db.Valid path

omit [Sha256] in
/-- Calls that find nothing and leave the database alone. -/
theorem finds_same {w w' : World Unit} {r : Request} {x : Except Exception r.Val} {gone : Bool}
    (hgone : gone = true → ¬ w.db.Valid path) (hfinds : Finds path r x gone gone) (hdb : w'.db = w.db) :
    ∃ gone', Finds path r x gone gone' ∧ (gone' = true → ¬ w'.db.Valid path) :=
  ⟨gone, hfinds, by rwa [hdb]⟩

/-- What one call finds is so afterwards. -/
theorem finds_of_does {w w' : World Unit} {r : Request} {x : Except Exception r.Val} {gone : Bool}
    (hgone : gone = true → ¬ w.db.Valid path) (h : Does U.settings () r w x w') :
    ∃ gone', Finds path r x gone gone' ∧ (gone' = true → ¬ w'.db.Valid path) := by
  cases r with
  | isValidPath p =>
      rcases h with ⟨rfl | ⟨e, rfl⟩, rfl⟩
      · rcases hvalid : w'.db.isValidPath_ p with - | -
        · refine ⟨gone || p = path, rfl, fun hor => ?_⟩
          rcases (Bool.or_eq_true _ _).mp hor with hg | hp
          · exact hgone hg
          · obtain rfl := of_decide_eq_true hp
            simp [Database.Valid, hvalid]
        · exact finds_same hgone rfl rfl
      · exact finds_same hgone rfl rfl
  | registerValidPath info =>
      rcases h with ⟨_, _, db, -, -, rfl, rfl⟩ | ⟨⟨e, rfl⟩, rfl⟩
      · exact ⟨false, rfl, fun hg => by cases hg⟩
      · exact finds_same hgone rfl rfl
  | invalidatePathChecked p =>
      rcases h with ⟨db, hdb, rfl, rfl⟩ | ⟨⟨e, rfl⟩, rfl⟩
      · have hinvalidated := Database.invalidated_of_ok hdb
        refine ⟨gone || p = path, rfl, fun hor hvalid => ?_⟩
        obtain ⟨hbefore, hne⟩ := hinvalidated.valid_iff.mp hvalid
        rcases (Bool.or_eq_true _ _).mp hor with hg | hp
        · exact hgone hg hbefore
        · exact hne (of_decide_eq_true hp).symm
      · exact finds_same hgone rfl rfl
  | restorePath place source =>
      have hplaced : ∃ c, w' = w.restore () place c := by
        rcases h with ⟨_, _, _, _, -, -, -, rfl⟩ | ⟨-, c, rfl⟩
        · exact ⟨_, rfl⟩
        · exact ⟨_, rfl⟩
      obtain ⟨c, rfl⟩ := hplaced
      refine finds_same hgone (by cases x <;> rfl) ?_
      cases place <;> rfl
  | createTempDirInStore => rcases h with ⟨rfl, rfl⟩ | ⟨⟨e, rfl⟩, rfl⟩ <;> exact finds_same hgone rfl rfl
  | deleteTempDir => rcases h with ⟨rfl, rfl⟩ | ⟨⟨e, rfl⟩, c, rfl⟩ <;> exact finds_same hgone rfl rfl
  | lockPath p => rcases h with ⟨rfl, -, rfl⟩ | ⟨⟨e, rfl⟩, rfl⟩ <;> exact finds_same hgone rfl rfl
  | unlockPath p deletion =>
      rcases h with ⟨rfl, rfl⟩ | ⟨⟨e, rfl⟩, rfl | rfl⟩ <;> exact finds_same hgone rfl rfl
  | remove p =>
      rcases h with ⟨rfl, rfl⟩ | ⟨rfl | ⟨e, rfl⟩, c, -, rfl⟩ <;> exact finds_same hgone rfl rfl
  | moveFile p =>
      rcases h with ⟨rfl, rfl | rfl⟩ | ⟨⟨e, rfl⟩, c, c', rfl⟩ <;> exact finds_same hgone rfl rfl
  | lockGC => rcases h with ⟨rfl, -, rfl⟩ | ⟨⟨e, rfl⟩, rfl⟩ <;> exact finds_same hgone rfl rfl
  | unlockGC => rcases h with ⟨rfl, rfl⟩ | ⟨⟨e, rfl⟩, rfl⟩ <;> exact finds_same hgone rfl rfl
  | dirGrantsDefaultAcl =>
      obtain rfl := h
      exact finds_same hgone (by cases x <;> rfl) rfl
  | optimisePath p =>
      obtain rfl := h
      exact finds_same hgone (by cases x <;> rfl) rfl
  | sync p =>
      obtain rfl := h
      exact finds_same hgone (by cases x <;> rfl) rfl
  | _ =>
      obtain rfl := h.2
      exact finds_same hgone (by cases x <;> rfl) rfl

theorem Looked.op {w w' : World Unit} {R : Thread Unit → Option Bool} {a : Thread Unit} {r : Request}
    {x : Except Exception r.Val} (h : Looked path w R) (hpre : (Tidy path).pre r (R a))
    (hexec : exec U.settings a.1 r w x w') :
    ∃ held, (Tidy path).post r (R a) x held ∧ Looked path w' (Function.update R a held) := by
  obtain ⟨gone, hheld, -⟩ := hpre
  have hmain : a = ((), none) := by
    obtain ⟨⟨⟩, - | n⟩ := a
    · rfl
    · rw [h.tasks n] at hheld
      cases hheld
  subst hmain
  have hknown : gone = true → ¬ w.db.Valid path := fun hg => h.gone (by rw [hheld, hg])
  obtain ⟨gone', hfinds, hgone'⟩ := finds_of_does hknown hexec.2
  refine ⟨some gone', ⟨gone, gone', hheld, rfl, hfinds⟩, fun n => ?_, fun hg => hgone' ?_⟩
  · rw [Function.update_of_ne (by simp)]
    exact h.tasks n
  · rw [Function.update_self] at hg
    exact Option.some.inj hg

/-- A process on its own removes nothing that is registered. -/
theorem reachable_spared (h : U.system.Reachable m) : (U.system.restrict Spared).Reachable m := by
  have hup : ∀ path, Upholds (exec U.settings) (fun w w' => ∃ i, w' = w.died i) (Tidy path) none
      (Looked path) := by
    intro path
    refine ⟨fun w R a r x w' hinv hpre hexec => hinv.op hpre hexec, fun _ _ _ _ t => isEmptyElim t,
      fun w R i hinv _ => ⟨_, rfl, by rwa [Function.update_eq_self]⟩, ?_⟩
    rintro w R _ hinv ⟨i, rfl⟩
    exact ⟨hinv.tasks, hinv.gone⟩
  have hstart : ∀ path m, U.Initial m → ∃ R, Looked path m.state R ∧
      Foundation.Kept (Tidy path) True none (fun _ _ held => held ≠ none) m.process R := by
    intro path m hm
    refine ⟨fun a => if a.2 = none then some false else none, ⟨fun n => by simp, by simp⟩,
      fun i => ?_, fun i n p hp => ?_, fun _ _ _ => by simp⟩
    · rw [hm.process]
      exact Tidies.inTurn (U.operations i) false Bool.noConfusion
    · rw [hm.process] at hp
      cases hp
  have hboth : U.system.Reachable m ∧ (U.system.restrict Spared).Reachable m := by
    refine h.invariant (P := fun m => U.system.Reachable m ∧ (U.system.restrict Spared).Reachable m)
      (fun m hm => ⟨.of_init hm, .of_init hm⟩) ?_
    rintro m a m' ⟨hreach, hspared⟩ hstep
    refine ⟨hreach.step hstep, hspared.step ⟨hstep, ?_⟩⟩
    rintro i p k rfl hmain
    obtain ⟨R, hinv, hkept⟩ := machine_meets (hup p) (fun t => isEmptyElim t) (hstart p) hreach
    have hmeets := hkept.main i
    rw [hmain] at hmeets
    obtain ⟨⟨gone, hheld, hgone⟩, -⟩ := hmeets
    refine ⟨hinv.gone ?_, fun j hj => absurd rfl hj⟩
    rw [hheld, hgone rfl]
  exact hboth.2

end Users

namespace Example

/-- An empty file has been imported into a new store. -/
theorem imported_in_turn : ∃ (_ : Sha256) (U : Users Unit)
    (m : Machine Requests (World Unit) Unit PUnit) (path : StorePath),
    U.system.Reachable m ∧ m.state.db.Valid path := by
  let sha256 : Sha256 := .ofTable [] fun _ h => by cases h
  let t : Tree := .regular false []
  obtain ⟨path, hpath, -⟩ := settings.makeStorePath_of_checkName (str "source")
    (hashString t.nar).base16 (show checkName (str "x") = .ok () by decide)
  let U : Users Unit :=
    { settings, reads := .whole, depth := fun _ => 1
      operations := fun _ => [.addToStoreFromDump t.nar (str "x"), .collectGarbage []]
      stored := fun _ => none, stored_eq := fun _ _ h => by cases h }
  let start : Machine Requests (World Unit) Unit PUnit :=
    ⟨emptyWorld Unit, fun i =>
      .start (Operation.inTurn U.settings U.reads (U.depth i) (U.operations i))⟩
  have hinit : U.Initial start := by
    refine ⟨rfl, rfl, fun p hvalid => ?_⟩
    simp [Database.Valid, start, emptyWorld, not_valid_empty] at hvalid
  obtain ⟨w', hends, hvalid⟩ := addToStoreFromDump_ends (i := ()) (w := emptyWorld Unit) 0 []
    (.regular false (by decide)) (by decide) (by simp [emptyWorld]) hpath rfl
  rw [List.append_nil] at hends
  have hfirst : Prog.Ends (exec settings ()) (emptyWorld Unit)
      ((Operation.addToStoreFromDump t.nar (str "x")).program settings .whole 1) (.ok ()) w' :=
    hends.bind (.refl _ _)
  have hrest := (hfirst.attempt.bind (f := fun _ => (pure ⟨⟩ : Prog Requests PUnit)) (.refl _ _)).before
    fun _ => Operation.inTurn settings .whole 1 [.collectGarbage []]
  have hstart : U.system.Reachable start := .of_init hinit
  have hreach := Prog.Steps.reachable (i := ()) hstart hrest
  exact ⟨sha256, U, _, path, hreach, hvalid⟩

end Example

/-- For a process on its own nothing has to be assumed: whatever it does in turn, and however its
calls end, every registered path is intact. -/
theorem intact_in_turn [Sha256] (U : Users Unit) {m : Machine Requests (World Unit) Unit PUnit}
    (h : U.system.Reachable m) {path : StorePath} (hvalid : m.state.db.Valid path) :
    U.Intact m.state path := by
  obtain ⟨R, hinv⟩ := Users.inv_of_reachable path (Users.reachable_spared h)
  exact hinv.intact hvalid

theorem intact_in_turn_example : ∃ (_ : Sha256) (U : Users Unit)
    (m : Machine Requests (World Unit) Unit PUnit) (path : StorePath),
    U.system.Reachable m ∧ m.state.db.Valid path ∧ U.Intact m.state path := by
  obtain ⟨sha256, U, m, path, hreach, hvalid⟩ := Example.imported_in_turn
  exact ⟨sha256, U, m, path, hreach, hvalid, intact_in_turn U hreach hvalid⟩

end Adding
end Store
end Archinix
