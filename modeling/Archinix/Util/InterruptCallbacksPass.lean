import Archinix.Util.InterruptCallbacks

/-!
# One pass over the interrupt callbacks

A pass of `triggerInterrupt` among other threads.  The tokens it finds increase, and when
it is at the head of its loop it has found whatever is registered below its position; a
registration that is made meanwhile lies at or behind the position, since its token is
greater than all before it.

`callbacks_once`: what a pass calls, that no destructor removes the registration of
another object, and that the pass ends.
-/

namespace Archinix
namespace Util
namespace InterruptCallbacks

open Foundation

variable {κ : Type}

/-- The entries found in the map, in the order of the looks at it. -/
def looked (ls : List (Event κ)) : List (Token × κ) :=
  ls.filterMap fun
    | .lookUp found => found
    | _ => none

/-- The callbacks called, with their tokens. -/
def invocations (ls : List (Event κ)) : List (Token × κ) :=
  ls.filterMap fun
    | .invoke token callback => some (token, callback)
    | _ => none

/-- A call of `createInterruptCallback`. -/
def Event.isCreate : Event κ → Bool
  | .create .. => true
  | _ => false

/-- A step of the signal handler thread within a pass. -/
def Event.isHandler : Event κ → Bool
  | .lookUp _ | .invoke .. | .comeBack _ => true
  | _ => false

/-- From a state between two passes: the trigger, and steps of all threads up to a point
at which the pass has not ended. -/
structure Pass (s : State κ) (ls : List (Event κ)) (t : State κ) : Prop where
  reachable : (system κ).Reachable s
  run : ∃ s', Step s .trigger s' ∧ (system κ).Run s' ls t
  not_ended : .lookUp none ∉ ls

/-- How many steps are left of the round that the handler is in. -/
def HandlerPc.left : HandlerPc κ → Nat
  | .found .. => 2
  | .calling _ => 1
  | _ => 0

section Labels

variable (ls ms : List (Event κ)) (l : Event κ)

theorem looked_append : looked (ls ++ ms) = looked ls ++ looked ms := List.filterMap_append ..

theorem invocations_append : invocations (ls ++ ms) = invocations ls ++ invocations ms :=
  List.filterMap_append ..

end Labels

/-- What a pass has done before a state. -/
structure Progress (s : State κ) (ls : List (Event κ)) (t : State κ) : Prop where
  running : t.handler ≠ .idle
  increasing : ((looked ls).map Prod.fst).Pairwise (· < ·)
  below : ∀ e ∈ looked ls, e.1 < t.handler.position
  /-- Nothing that is registered is left behind. -/
  covered : ∀ e ∈ t.callbacks, e.1 < t.handler.position → e ∈ looked ls
  called : looked ls = invocations ls ++ t.handler.pending
  steps : ls.countP Event.isHandler + t.handler.left = 3 * (looked ls).length
  given : t.nextToken = s.nextToken + ls.countP Event.isCreate
  registered : ∀ e ∈ t.callbacks, e ∈ s.callbacks ∨ s.nextToken ≤ e.1
  found : ∀ e ∈ looked ls, e ∈ s.callbacks ∨ s.nextToken ≤ e.1

section Step

variable {s t u : State κ} {ls : List (Event κ)} {l : Event κ}

theorem progress_trigger (h : Step s .trigger t) : Progress s [] t := by
  obtain ⟨-, rfl⟩ := h
  constructor
  · exact nofun
  · exact .nil
  · exact nofun
  · exact fun e _ hlt => absurd hlt (Nat.not_lt_zero _)
  · rfl
  · rfl
  · rfl
  · exact fun e he => .inl he
  · exact nofun

theorem Progress.lookUp (h : Progress s ls t) (hinv : Inv t) {e : Token × κ}
    (hstep : Step t (.lookUp (some e)) u) : Progress s (ls ++ [.lookUp (some e)]) u := by
  obtain ⟨i, hpc, hfound, rfl⟩ := hstep
  obtain ⟨hmem, hle, hfirst⟩ := lowerBound_eq_some hinv.sorted hfound
  have hbelow : ∀ d ∈ looked ls, d.1 < i := by
    have hposition := h.below
    rwa [hpc] at hposition
  have hlooked : looked (ls ++ [.lookUp (some e)]) = looked ls ++ [e] := looked_append ..
  have hcalled := h.called
  have hsteps := h.steps
  rw [hpc] at hcalled hsteps
  change ls.countP Event.isHandler + 0 = _ at hsteps
  constructor
  · exact nofun
  · rw [hlooked, List.map_append]
    refine pairwise_concat h.increasing fun k hk => ?_
    obtain ⟨d, hd, rfl⟩ := List.mem_map.1 hk
    exact Nat.lt_of_lt_of_le (hbelow d hd) hle
  · rw [hlooked]
    intro d hd
    rcases List.mem_append.1 hd with hd | hd
    · exact Nat.lt_succ_of_lt (Nat.lt_of_lt_of_le (hbelow d hd) hle)
    · rw [List.mem_singleton.1 hd]
      exact Nat.lt_succ_self _
  · rw [hlooked]
    intro d hd hlt
    rcases hfirst d hd hlt with hbefore | rfl
    · refine List.mem_append_left _ (h.covered d hd ?_)
      rwa [hpc]
    · exact List.mem_append_right _ List.mem_cons_self
  · rw [hlooked, invocations_append, hcalled]
    show _ ++ [] ++ [e] = _ ++ [] ++ [(e.1, e.2)]
    rfl
  · rw [hlooked, List.countP_append, List.length_append]
    show ls.countP Event.isHandler + 1 + 2 = 3 * ((looked ls).length + 1)
    omega
  · rw [List.countP_append]
    exact h.given
  · exact h.registered
  · rw [hlooked]
    intro d hd
    rcases List.mem_append.1 hd with hd | hd
    · exact h.found d hd
    · exact List.mem_singleton.1 hd ▸ h.registered e hmem

theorem Progress.invoke (h : Progress s ls t) {token : Token} {callback : κ}
    (hstep : Step t (.invoke token callback) u) : Progress s (ls ++ [.invoke token callback]) u := by
  obtain ⟨i, hpc, rfl⟩ := hstep
  have hlooked : looked (ls ++ [.invoke token callback]) = looked ls :=
    (looked_append ..).trans (List.append_nil _)
  have hbelow := h.below
  have hcovered := h.covered
  have hcalled := h.called
  have hsteps := h.steps
  rw [hpc] at hbelow hcovered hcalled hsteps
  change ls.countP Event.isHandler + 2 = _ at hsteps
  constructor
  · exact nofun
  · rw [hlooked]
    exact h.increasing
  · rw [hlooked]
    exact hbelow
  · rw [hlooked]
    exact hcovered
  · rw [hlooked, invocations_append]
    exact hcalled.trans (List.append_nil _).symm
  · rw [hlooked, List.countP_append]
    show ls.countP Event.isHandler + 1 + 1 = _
    omega
  · rw [List.countP_append]
    exact h.given
  · exact h.registered
  · rw [hlooked]
    exact h.found

theorem Progress.comeBack (h : Progress s ls t) {threw : Bool} (hstep : Step t (.comeBack threw) u) :
    Progress s (ls ++ [.comeBack threw]) u := by
  obtain ⟨i, hpc, rfl⟩ := hstep
  have hlooked : looked (ls ++ [.comeBack threw]) = looked ls :=
    (looked_append ..).trans (List.append_nil _)
  have hbelow := h.below
  have hcovered := h.covered
  have hcalled := h.called
  have hsteps := h.steps
  rw [hpc] at hbelow hcovered hcalled hsteps
  change ls.countP Event.isHandler + 1 = _ at hsteps
  constructor
  · exact nofun
  · rw [hlooked]
    exact h.increasing
  · rw [hlooked]
    exact hbelow
  · rw [hlooked]
    exact hcovered
  · rw [hlooked, invocations_append]
    exact hcalled.trans (congrArg (· ++ []) (List.append_nil _).symm)
  · rw [hlooked, List.countP_append]
    show ls.countP Event.isHandler + 1 + 0 = _
    omega
  · rw [List.countP_append]
    exact h.given
  · exact h.registered
  · rw [hlooked]
    exact h.found

/-- What `createInterruptCallback` leaves, whatever becomes of it. -/
theorem create_cases (hinv : Inv t) (callback : κ) (outcome : Outcome) :
    (createInterruptCallback t callback outcome).handler = t.handler ∧
      (createInterruptCallback t callback outcome).nextToken = t.nextToken + 1 ∧
      ∀ e ∈ (createInterruptCallback t callback outcome).callbacks,
        e ∈ t.callbacks ∨ e = (t.nextToken, callback) := by
  have hemplace : ∀ e ∈ emplace t.nextToken callback t.callbacks,
      e ∈ t.callbacks ∨ e = (t.nextToken, callback) := by
    rw [hinv.emplace]
    intro e he
    simpa using he
  cases outcome with
  | emplaceThrew => exact ⟨rfl, rfl, fun e he => .inl he⟩
  | makeUniqueThrew => exact ⟨rfl, rfl, hemplace⟩
  | returned object => exact ⟨rfl, rfl, hemplace⟩

theorem Progress.create (h : Progress s ls t) (hinv : Inv t) {callback : κ} {outcome : Outcome}
    (hstep : Step t (.create callback outcome) u) :
    Progress s (ls ++ [.create callback outcome]) u := by
  obtain ⟨-, -, rfl⟩ := hstep
  obtain ⟨hhandler, hnext, hentries⟩ := create_cases hinv callback outcome
  have hlooked : looked (ls ++ [.create callback outcome]) = looked ls :=
    (looked_append ..).trans (List.append_nil _)
  constructor
  · rw [hhandler]
    exact h.running
  · rw [hlooked]
    exact h.increasing
  · rw [hlooked, hhandler]
    exact h.below
  · rw [hlooked, hhandler]
    intro e he hlt
    rcases hentries e he with he | rfl
    · exact h.covered e he hlt
    · -- the new token is not behind the position
      exact absurd hlt (Nat.not_lt.2 hinv.position)
  · rw [hlooked, hhandler, invocations_append]
    exact h.called.trans (congrArg (· ++ _) (List.append_nil _).symm)
  · rw [hlooked, hhandler, List.countP_append]
    exact h.steps
  · rw [hnext, h.given, List.countP_append]
    rfl
  · intro e he
    rcases hentries e he with he | rfl
    · exact h.registered e he
    · right
      show s.nextToken ≤ t.nextToken
      rw [h.given]
      exact Nat.le_add_right _ _
  · rw [hlooked]
    exact h.found

theorem Progress.destroy (h : Progress s ls t) {object : Nat} (hstep : Step t (.destroy object) u) :
    Progress s (ls ++ [.destroy object]) u := by
  obtain ⟨token, -, rfl⟩ := hstep
  have hsub : ∀ e ∈ (destroyInterruptCallback t object token).callbacks, e ∈ t.callbacks :=
    fun e he => (List.mem_filter.1 he).1
  have hlooked : looked (ls ++ [.destroy object]) = looked ls :=
    (looked_append ..).trans (List.append_nil _)
  constructor
  · exact h.running
  · rw [hlooked]
    exact h.increasing
  · rw [hlooked]
    exact h.below
  · rw [hlooked]
    exact fun e he => h.covered e (hsub e he)
  · rw [hlooked, invocations_append]
    exact h.called.trans (congrArg (· ++ _) (List.append_nil _).symm)
  · rw [hlooked, List.countP_append]
    exact h.steps
  · rw [List.countP_append]
    exact h.given
  · exact fun e he => h.registered e (hsub e he)
  · rw [hlooked]
    exact h.found

theorem Progress.step (h : Progress s ls t) (hinv : Inv t) (hne : l ≠ .lookUp none)
    (hstep : Step t l u) : Progress s (ls ++ [l]) u := by
  cases l with
  | trigger => exact absurd hstep.1 h.running
  | lookUp found =>
      cases found with
      | none => exact absurd rfl hne
      | some e => exact h.lookUp hinv hstep
  | invoke token callback => exact h.invoke hstep
  | comeBack threw => exact h.comeBack hstep
  | create callback outcome => exact h.create hinv hstep
  | destroy object => exact h.destroy hstep

end Step

section Run

variable {s t u : State κ} {ls : List (Event κ)} {l : Event κ}

theorem progress_of_run {s' : State κ} (hs' : (system κ).Reachable s')
    (htrigger : Step s .trigger s') (hrun : (system κ).Run s' ls t) (hne : .lookUp none ∉ ls) :
    Progress s ls t ∧ (system κ).Reachable t := by
  induction hrun with
  | refl => exact ⟨progress_trigger htrigger, hs'⟩
  | snoc _ hstep ih =>
      rw [List.mem_append, List.mem_singleton, not_or] at hne
      obtain ⟨hprogress, hreachable⟩ := ih hne.1
      exact ⟨hprogress.step (inv_of_reachable hreachable) (Ne.symm hne.2) hstep,
        hreachable.step hstep⟩

theorem Pass.progress (h : Pass s ls t) : Progress s ls t ∧ (system κ).Reachable t := by
  obtain ⟨s', htrigger, hrun⟩ := h.run
  have hs' : (system κ).Reachable s' := h.reachable.step (l := .trigger) htrigger
  exact progress_of_run hs' htrigger hrun h.not_ended

/-- A token that has been given out and is no longer registered. -/
def Gone (token : Token) (s : State κ) : Prop :=
  token < s.nextToken ∧ ∀ e ∈ s.callbacks, e.1 ≠ token

/-- It is never registered again, and so not found. -/
theorem Gone.step {token : Token} (h : Gone token s) (hinv : Inv s) (hstep : Step s l t) :
    Gone token t ∧ ∀ e ∈ looked [l], e.1 ≠ token := by
  cases l with
  | trigger =>
      obtain ⟨-, rfl⟩ := hstep
      exact ⟨h, nofun⟩
  | lookUp found =>
      obtain ⟨i, -, hfound, rfl⟩ := hstep
      refine ⟨h, fun e he => ?_⟩
      cases found with
      | none => cases he
      | some d =>
          rw [List.mem_singleton.1 he]
          exact h.2 d (lowerBound_eq_some hinv.sorted hfound).1
  | invoke token callback =>
      obtain ⟨i, -, rfl⟩ := hstep
      exact ⟨h, nofun⟩
  | comeBack threw =>
      obtain ⟨i, -, rfl⟩ := hstep
      exact ⟨h, nofun⟩
  | create callback outcome =>
      obtain ⟨-, -, rfl⟩ := hstep
      obtain ⟨-, hnext, hentries⟩ := create_cases hinv callback outcome
      refine ⟨⟨hnext ▸ Nat.lt_succ_of_lt h.1, fun e he => ?_⟩, nofun⟩
      rcases hentries e he with he | rfl
      · exact h.2 e he
      · exact (Nat.ne_of_lt h.1).symm
  | destroy object =>
      obtain ⟨_, -, rfl⟩ := hstep
      exact ⟨⟨h.1, fun e he => h.2 e (List.mem_filter.1 he).1⟩, nofun⟩

theorem Gone.run {token : Token} (h : Gone token s) (hs : (system κ).Reachable s)
    (hrun : (system κ).Run s ls t) : ∀ e ∈ looked ls, e.1 ≠ token := by
  suffices hall : Gone token t ∧ (system κ).Reachable t ∧ ∀ e ∈ looked ls, e.1 ≠ token from hall.2.2
  induction hrun with
  | refl => exact ⟨h, hs, nofun⟩
  | snoc _ hstep ih =>
      obtain ⟨hgone, hreachable, hlooked⟩ := ih
      obtain ⟨hgone', hlast⟩ := hgone.step (inv_of_reachable hreachable) hstep
      refine ⟨hgone', hreachable.step hstep, fun e he => ?_⟩
      rw [looked_append, List.mem_append] at he
      exact he.elim (hlooked e) (hlast e)

theorem gone_of_destroy {object : Nat} {token : Token} (hinv : Inv s)
    (hmem : (object, token) ∈ s.impls) (hstep : Step s (.destroy object) t) : Gone token t := by
  obtain ⟨token', hmem', rfl⟩ := hstep
  obtain rfl : token = token' :=
    congrArg Prod.snd (List.inj_on_of_nodup_map hinv.objects hmem hmem' rfl)
  obtain ⟨callback, hcallback⟩ := hinv.registered _ hmem
  refine ⟨hinv.below _ hcallback, fun e he => ?_⟩
  simpa using (List.mem_filter.1 he).2

/-- What is called has been found before. -/
theorem Progress.mem_looked (h : Progress s ls t) {e : Token × κ} (he : e ∈ invocations ls) :
    e ∈ looked ls := by
  rw [h.called]
  exact List.mem_append_left _ he

theorem Progress.nodup_invocations (h : Progress s ls t) :
    ((invocations ls).map Prod.fst).Nodup := by
  have hlooked := h.increasing
  rw [h.called, List.map_append, List.pairwise_append] at hlooked
  exact hlooked.1.imp fun hlt => Nat.ne_of_lt hlt

/-- At the end of the map every registration has been found, and no call is outstanding. -/
theorem Progress.at_end (h : Progress s ls t) (hend : Step t (.lookUp none) u) {e : Token × κ}
    (he : e ∈ u.callbacks) : e ∈ invocations ls := by
  obtain ⟨i, hpc, hnone, rfl⟩ := hend
  have hcovered := h.covered e he
  rw [h.called, hpc] at hcovered
  have hmem := hcovered (lowerBound_eq_none.1 hnone e he)
  rwa [show (HandlerPc.loop i : HandlerPc κ).pending = [] from rfl, List.append_nil] at hmem

/-- A pass finds no more than was registered before it and is registered during it. -/
theorem Progress.length_looked (h : Progress s ls t) (hinv : Inv t) :
    (looked ls).length ≤ s.callbacks.length + ls.countP Event.isCreate := by
  have hnodup : ((looked ls).map Prod.fst).Nodup := h.increasing.imp fun hlt => Nat.ne_of_lt hlt
  have hsubset : (looked ls).map Prod.fst ⊆
      s.callbacks.map Prod.fst ++ List.range' s.nextToken (ls.countP Event.isCreate) := by
    intro k hk
    obtain ⟨e, he, rfl⟩ := List.mem_map.1 hk
    rw [List.mem_append]
    rcases h.found e he with hbefore | hduring
    · exact .inl (List.mem_map_of_mem hbefore)
    · right
      have hlt : e.1 < s.nextToken + ls.countP Event.isCreate :=
        h.given ▸ Nat.lt_of_lt_of_le (h.below e he) hinv.position
      exact List.mem_range'_1.2 ⟨hduring, hlt⟩
  have hlength := (List.subperm_of_subset hnodup hsubset).length_le
  rwa [List.length_map, List.length_append, List.length_map, List.length_range'] at hlength

/-- The signal handler thread is never blocked within a pass. -/
theorem Progress.enabled (h : Progress s ls t) : ∃ l u, l.isHandler = true ∧ Step t l u := by
  have hrunning := h.running
  cases hpc : t.handler with
  | idle => exact absurd hpc hrunning
  | loop i => exact ⟨.lookUp (lowerBound t.callbacks i), _, rfl, i, hpc, rfl, rfl⟩
  | found token callback i => exact ⟨.invoke token callback, _, rfl, i, hpc, rfl⟩
  | calling i => exact ⟨.comeBack false, _, rfl, i, hpc, rfl⟩

theorem Progress.handler_le (h : Progress s ls t) (hinv : Inv t) :
    ls.countP Event.isHandler ≤ 3 * (s.callbacks.length + ls.countP Event.isCreate) := by
  have hlength := h.length_looked hinv
  have hsteps := h.steps
  omega

/-- Without an end, a pass in which the handler keeps taking steps would take more of them
than there are callbacks to find. -/
theorem Pass.ends (h : Pass s ls t) {f : Nat → State κ} {labels : Nat → Event κ}
    (hstart : f 0 = t) (hsteps : ∀ n, Step (f n) (labels n) (f (n + 1)))
    (hcreate : ∃ n, ∀ m, n ≤ m → (labels m).isCreate = false)
    (hfair : ∀ n, ∃ m, n ≤ m ∧ (labels m).isHandler = true) : ∃ n, labels n = .lookUp none := by
  by_contra hnever
  obtain ⟨bound, hbound⟩ := hcreate
  have hpass : ∀ n, Pass s (ls ++ (List.range n).map labels) (f n) := by
    intro n
    obtain ⟨s', htrigger, hrun⟩ := h.run
    refine ⟨h.reachable, ⟨s', htrigger, hrun.trans ?_⟩, fun hmem => ?_⟩
    · exact hstart ▸ TransitionSystem.run_range hsteps n
    · rcases List.mem_append.1 hmem with hmem | hmem
      · exact h.not_ended hmem
      · obtain ⟨m, -, heq⟩ := List.mem_map.1 hmem
        exact hnever ⟨m, heq⟩
  have hcreated : ∀ n, ((List.range n).map labels).countP Event.isCreate ≤ bound := by
    intro n
    rw [List.countP_map]
    exact countP_range_le hbound n
  let limit := 3 * (s.callbacks.length + (ls.countP Event.isCreate + bound))
  obtain ⟨n, hn⟩ := exists_le_countP_range (p := Event.isHandler ∘ labels) hfair (limit + 1)
  obtain ⟨hprogress, hreachable⟩ := (hpass n).progress
  have hle := hprogress.handler_le (inv_of_reachable hreachable)
  rw [List.countP_append, List.countP_append, List.countP_map] at hle
  have hcreated' := hcreated n
  omega

/-- A registration goes with the destruction of its own object only. -/
theorem removed_by_destroy (hinv : Inv s) (hstep : Step s l t) {e : Token × κ} (he : e ∈ s.callbacks)
    (hgone : e ∉ t.callbacks) : ∃ object, l = .destroy object ∧ (object, e.1) ∈ s.impls ∧
      ∀ p ∈ s.impls, p.2 = e.1 → p.1 = object := by
  cases l with
  | trigger =>
      obtain ⟨-, rfl⟩ := hstep
      exact absurd he hgone
  | lookUp found =>
      obtain ⟨i, -, -, rfl⟩ := hstep
      exact absurd he hgone
  | invoke token callback =>
      obtain ⟨i, -, rfl⟩ := hstep
      exact absurd he hgone
  | comeBack threw =>
      obtain ⟨i, -, rfl⟩ := hstep
      exact absurd he hgone
  | create callback outcome =>
      obtain ⟨-, -, rfl⟩ := hstep
      have hemplace : e ∈ emplace s.nextToken callback s.callbacks := by
        rw [hinv.emplace]
        exact List.mem_append_left _ he
      cases outcome with
      | emplaceThrew => exact absurd he hgone
      | makeUniqueThrew => exact absurd hemplace hgone
      | returned object => exact absurd hemplace hgone
  | destroy object =>
      obtain ⟨token, hmem, rfl⟩ := hstep
      have htoken : e.1 = token := by
        by_contra hne
        exact hgone (List.mem_filter.2 ⟨he, decide_eq_true hne⟩)
      refine ⟨object, rfl, htoken ▸ hmem, fun p hp heq => ?_⟩
      exact congrArg Prod.fst (List.inj_on_of_nodup_map hinv.tokens hp hmem (heq.trans htoken))

/-- One pass, among threads that create and destroy registrations as they like:

* no registration is called twice;
* one that is there when the map has been walked to its end has been called once, with its
  own callback, and others were there before or have been made during the pass;
* one whose object is destroyed before the pass has found it is not called;
* a destructor takes no registration from the map but that of its object;
* the handler is never blocked, takes no more than three steps for each registration there
  was or is made, and so, if only finitely many are made, comes to the end of the map. -/
theorem callbacks_once (h : Pass s ls t) :
    ((invocations ls).map Prod.fst).Nodup ∧
    (∀ u, Step t (.lookUp none) u → ∀ e ∈ u.callbacks,
      (invocations ls).filter (·.1 = e.1) = [e]) ∧
    (∀ e ∈ invocations ls, e ∈ s.callbacks ∨ s.nextToken ≤ e.1) ∧
    (∀ before object after v w token, ls = before ++ .destroy object :: after → Pass s before v →
      Step v (.destroy object) w → (system κ).Run w after t → (object, token) ∈ v.impls →
      token ∉ (looked before).map Prod.fst → token ∉ (invocations ls).map Prod.fst) ∧
    (∀ v, (system κ).Reachable v → ∀ l w, Step v l w → ∀ e ∈ v.callbacks, e ∉ w.callbacks →
      ∃ object, l = .destroy object ∧ (object, e.1) ∈ v.impls ∧
        ∀ p ∈ v.impls, p.2 = e.1 → p.1 = object) ∧
    (∃ l u, l.isHandler = true ∧ Step t l u) ∧
    ls.countP Event.isHandler ≤ 3 * (s.callbacks.length + ls.countP Event.isCreate) ∧
    (∀ (f : Nat → State κ) (labels : Nat → Event κ), f 0 = t →
      (∀ n, Step (f n) (labels n) (f (n + 1))) →
      (∃ n, ∀ m, n ≤ m → (labels m).isCreate = false) →
      (∀ n, ∃ m, n ≤ m ∧ (labels m).isHandler = true) → ∃ n, labels n = .lookUp none) := by
  obtain ⟨hprogress, hreachable⟩ := h.progress
  refine ⟨hprogress.nodup_invocations, ?_, fun e he => hprogress.found e (hprogress.mem_looked he),
    ?_, ?_, hprogress.enabled, hprogress.handler_le (inv_of_reachable hreachable), ?_⟩
  · intro u hend e he
    exact filter_of_nodup_map hprogress.nodup_invocations (hprogress.at_end hend he)
  · intro before object after v w token hls hbefore hdestroy hrun hmem hnot hcalled
    obtain ⟨-, hv⟩ := hbefore.progress
    have hgone := gone_of_destroy (inv_of_reachable hv) hmem hdestroy
    have hw : (system κ).Reachable w := hv.step (l := .destroy object) hdestroy
    obtain ⟨e, he, rfl⟩ := List.mem_map.1 hcalled
    have hlooked := hprogress.mem_looked he
    rw [hls, looked_append] at hlooked
    rcases List.mem_append.1 hlooked with hlooked | hlooked
    · exact hnot (List.mem_map_of_mem hlooked)
    · exact hgone.run hw hrun e hlooked rfl
  · intro v hv l w hstep e he hremoved
    exact removed_by_destroy (inv_of_reachable hv) hstep he hremoved
  · intro f labels hstart hsteps hcreate hfair
    exact h.ends hstart hsteps hcreate hfair

end Run

section SecondDestroyed

/-- Two registrations. -/
def twoRegistered : State Nat where
  isInterrupted := false
  nextToken := 2
  callbacks := [(0, 10), (1, 20)]
  impls := [(1, 1), (0, 0)]
  handler := .idle

/-- The second one is destroyed before the call of the first one. -/
def secondDestroyed : List (Event Nat) :=
  [.lookUp (some (0, 10)), .destroy 1, .invoke 0 10, .comeBack true]

def firstCalled : State Nat where
  isInterrupted := true
  nextToken := 2
  callbacks := [(0, 10)]
  impls := [(0, 0)]
  handler := .loop 1

theorem reachable_twoRegistered : (system Nat).Reachable twoRegistered := by
  have hfirst : Step (initial Nat) (.create 10 (.returned 0))
      (createInterruptCallback (initial Nat) 10 (.returned 0)) := ⟨by decide, nofun, rfl⟩
  have hone : (system Nat).Reachable (createInterruptCallback (initial Nat) 10 (.returned 0)) :=
    (TransitionSystem.Reachable.of_init rfl).step (l := .create 10 (.returned 0)) hfirst
  have hsecond : Step (createInterruptCallback (initial Nat) 10 (.returned 0))
      (.create 20 (.returned 1)) twoRegistered :=
    ⟨by decide, fun object hobject => by cases hobject; decide, rfl⟩
  exact hone.step (l := .create 20 (.returned 1)) hsecond

theorem pass_secondDestroyed : Pass twoRegistered secondDestroyed firstCalled := by
  let started : State Nat := { twoRegistered with isInterrupted := true, handler := .loop 0 }
  have hfound : (system Nat).Run started ([] ++ [.lookUp (some (0, 10))])
      { started with handler := .found 0 10 1 } := (TransitionSystem.Run.refl _).snoc ⟨0, rfl, rfl, rfl⟩
  have hdestroyed : (system Nat).Run started (([] ++ [.lookUp (some (0, 10))]) ++ [.destroy 1])
      { firstCalled with handler := .found 0 10 1 } := hfound.snoc ⟨1, List.mem_cons_self, rfl⟩
  have hinvoke : (system Nat).step { firstCalled with handler := .found 0 10 1 } (.invoke 0 10)
      { firstCalled with handler := .calling 1 } := ⟨1, rfl, rfl⟩
  have hcomeBack : (system Nat).step { firstCalled with handler := .calling 1 } (.comeBack true)
      firstCalled := ⟨1, rfl, rfl⟩
  have hback := (hdestroyed.snoc hinvoke).snoc hcomeBack
  exact ⟨reachable_twoRegistered, ⟨started, ⟨rfl, rfl⟩, hback⟩, by simp [secondDestroyed]⟩

theorem callbacks_once_secondDestroyed : ((invocations secondDestroyed).map Prod.fst).Nodup ∧
    ∀ u, Step firstCalled (.lookUp none) u → ∀ e ∈ u.callbacks,
      (invocations secondDestroyed).filter (·.1 = e.1) = [e] :=
  ⟨(callbacks_once pass_secondDestroyed).1, (callbacks_once pass_secondDestroyed).2.1⟩

end SecondDestroyed

end InterruptCallbacks
end Util
end Archinix
