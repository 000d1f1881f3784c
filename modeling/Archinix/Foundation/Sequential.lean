import Archinix.Foundation.Program

/-!
# Programs on their own

The runs of a single program that starts no tasks, with nothing else happening
beside it, and the weakest precondition calculus for them.  `Prog.wp` is a
recursion on the program; its rules are equations, so a program is taken apart
by rewriting, with the specifications of the programs it calls applied by
`wp_mono`.
-/

namespace Archinix
namespace Foundation

namespace Prog

variable {I : Interface} {σ α β : Type} (exec : Exec I σ)

/-- What a program may have become, and the state it has left, after some of
its steps. -/
inductive Steps : σ → Prog I α → σ → Prog I α → Prop
  | refl (s : σ) (p : Prog I α) : Steps s p s p
  | op {s s' s'' : σ} {o : I.Op} {k : I.Ret o → Prog I α} {x : I.Ret o} {p : Prog I α}
      (h : exec o s x s') (rest : Steps s' (k x) s'' p) : Steps s (.op o k) s'' p

/-- The program, started in the first state, ends in the second. -/
def Ends (s : σ) (p : Prog I α) (r : Except I.Err α) (s' : σ) : Prop :=
  Steps exec s p s' (.done r)

/-- The weakest precondition for every run of a program to end in `Q`.  A
recursion that goes deeper than it was unrolled to may assume `deep`: with
`False` for it, no run does. -/
def wp (deep : Prop) : Prog I α → (Except I.Err α → σ → Prop) → σ → Prop
  | done r, Q, s => Q r s
  | op o k, Q, s => ∀ x s', exec o s x s' → wp deep (k x) Q s'
  | fork _ _, _, _ => False
  | join _, _, _ => False
  | spin, _, _ => deep

section Rules

variable {exec} {deep : Prop} {Q Q' : Except I.Err α → σ → Prop} {s s' : σ}

@[simp] theorem wp_done {r : Except I.Err α} : wp exec deep (done r) Q s ↔ Q r s := Iff.rfl

@[simp] theorem wp_op {o : I.Op} {k : I.Ret o → Prog I α} :
    wp exec deep (op o k) Q s ↔ ∀ x s', exec o s x s' → wp exec deep (k x) Q s' := Iff.rfl

@[simp] theorem wp_spin : wp exec deep (spin : Prog I α) Q s ↔ deep := Iff.rfl

@[simp] theorem wp_perform {o : I.Op} {Q : Except I.Err (I.Ret o) → σ → Prop} :
    wp exec deep (perform o) Q s ↔ ∀ x s', exec o s x s' → Q (.ok x) s' := Iff.rfl

theorem wp_mono {p : Prog I α} (h : wp exec deep p Q s) (hQ : ∀ r s, Q r s → Q' r s) :
    wp exec deep p Q' s := by
  induction p generalizing s with
  | done r => exact hQ r s h
  | op o k ih => exact fun x s' hexec => ih x (h x s' hexec)
  | fork t k => exact h
  | join k => exact h
  | spin => exact h

theorem wp_and {p : Prog I α} (h : wp exec deep p Q s) (h' : wp exec deep p Q' s) :
    wp exec deep p (fun r s => Q r s ∧ Q' r s) s := by
  induction p generalizing s with
  | done r => exact ⟨h, h'⟩
  | op o k ih => exact fun x s' hexec => ih x (h x s' hexec) (h' x s' hexec)
  | fork t k => exact h
  | join k => exact h
  | spin => exact h

variable (exec) in
/-- What a program does next, once its first part has ended with `r`. -/
def Next (deep : Prop) (f : α → Prog I β) (Q : Except I.Err β → σ → Prop) :
    Except I.Err α → σ → Prop
  | .ok a, s => wp exec deep (f a) Q s
  | .error e, s => Q (.error e) s

@[simp] theorem next_ok {f : α → Prog I β} {Q : Except I.Err β → σ → Prop} {a : α} :
    Next exec deep f Q (.ok a) s ↔ wp exec deep (f a) Q s := Iff.rfl

@[simp] theorem next_error {f : α → Prog I β} {Q : Except I.Err β → σ → Prop} {e : I.Err} :
    Next exec deep f Q (.error e) s ↔ Q (.error e) s := Iff.rfl

/-- Sequencing. -/
@[simp] theorem wp_bind {p : Prog I α} {f : α → Prog I β} {Q : Except I.Err β → σ → Prop} :
    wp exec deep (p.bind f) Q s ↔ wp exec deep p (Next exec deep f Q) s := by
  induction p generalizing s with
  | done r => cases r <;> rfl
  | op o k ih => simp only [bind, wp_op, ih]
  | fork t k => rfl
  | join k => rfl
  | spin => rfl

/-- A handler sees how the program ended. -/
@[simp] theorem wp_attempt {p : Prog I α} {Q : Except I.Err (Except I.Err α) → σ → Prop} :
    wp exec deep p.attempt Q s ↔ wp exec deep p (fun r => Q (.ok r)) s := by
  induction p generalizing s with
  | done r => rfl
  | op o k ih => simp only [attempt, wp_op, ih]
  | fork t k => rfl
  | join k => rfl
  | spin => rfl

/-- A loop over a list keeps what each round keeps; a round that throws ends it. -/
theorem wp_forM {l : List β} {f : β → Prog I PUnit} {Q : Except I.Err PUnit → σ → Prop}
    (Inv : List β → σ → Prop)
    (hround : ∀ b rest s, Inv (b :: rest) s → wp exec deep (f b)
      (fun r s => match r with | .ok _ => Inv rest s | .error e => Q (.error e) s) s)
    (hend : ∀ s, Inv [] s → Q (.ok ⟨⟩) s) (h : Inv l s) : wp exec deep (l.forM f) Q s := by
  induction l generalizing s with
  | nil => exact hend s h
  | cons b rest ih =>
      simp only [List.forM_eq_forM, List.forM_cons, bind_def, wp_bind] at ih ⊢
      refine wp_mono (hround b rest s h) fun r s hr => ?_
      cases r with
      | ok _ => exact ih hr
      | error e => exact hr

/-- The same with a value carried from round to round. -/
theorem wp_foldlM {γ : Type} {l : List β} {f : γ → β → Prog I γ} {c : γ}
    {Q : Except I.Err γ → σ → Prop} (Inv : List β → γ → σ → Prop)
    (hround : ∀ b rest c s, Inv (b :: rest) c s → wp exec deep (f c b)
      (fun r s => match r with | .ok c => Inv rest c s | .error e => Q (.error e) s) s)
    (hend : ∀ c s, Inv [] c s → Q (.ok c) s) (h : Inv l c s) :
    wp exec deep (l.foldlM f c) Q s := by
  induction l generalizing c s with
  | nil => exact hend c s h
  | cons b rest ih =>
      simp only [List.foldlM_cons, bind_def, wp_bind]
      refine wp_mono (hround b rest c s h) fun r s hr => ?_
      cases r with
      | ok c => exact ih hr
      | error e => exact hr

end Rules

section Adequacy

variable {exec} {deep : Prop} {Q : Except I.Err α → σ → Prop} {s s' : σ} {p p' : Prog I α}

theorem wp.steps (h : wp exec deep p Q s) (hsteps : Steps exec s p s' p') :
    wp exec deep p' Q s' := by
  induction hsteps with
  | refl => exact h
  | op hexec _ ih => exact ih (h _ _ hexec)

/-- Every run that ends, ends as the weakest precondition says. -/
theorem wp.ends {r : Except I.Err α} (h : wp exec deep p Q s) (hends : Ends exec s p r s') :
    Q r s' := h.steps hends

/-- What every operation keeps, a run keeps. -/
theorem Steps.preserves {P : σ → Prop} (hop : ∀ s o x s', P s → exec o s x s' → P s')
    (h : Steps exec s p s' p') (hs : P s) : P s' := by
  induction h with
  | refl => exact hs
  | op hexec _ ih => exact ih (hop _ _ _ _ hs hexec)

/-- Where every operation has an outcome, a program that never recurses too
deeply can always go on to its end. -/
theorem wp.total (hop : ∀ o s, ∃ x s', exec o s x s') (h : wp exec False p Q s) :
    ∃ r s', Ends exec s p r s' := by
  induction p generalizing s with
  | done r => exact ⟨r, s, .refl s _⟩
  | op o k ih =>
      obtain ⟨x, s', hexec⟩ := hop o s
      obtain ⟨r, s'', hrest⟩ := ih x (h x s' hexec)
      exact ⟨r, s'', .op hexec hrest⟩
  | fork t k => exact h.elim
  | join k => exact h.elim
  | spin => exact h.elim

end Adequacy

/-! ## Runs of what is put together -/

section Composition

variable {exec} {s s' s'' : σ} {p : Prog I α} {a : α} {r : Except I.Err α}

theorem Steps.bind {p' : Prog I α} (h : Steps exec s p s' p') (f : α → Prog I β) :
    Steps exec s (p.bind f) s' (p'.bind f) := by
  induction h with
  | refl s p => exact .refl s _
  | op hexec _ ih => exact .op hexec ih

theorem Steps.attempt {p' : Prog I α} (h : Steps exec s p s' p') :
    Steps exec s p.attempt s' p'.attempt := by
  induction h with
  | refl s p => exact .refl s _
  | op hexec _ ih => exact .op hexec ih

theorem Steps.trans {p p' p'' : Prog I α} (h : Steps exec s p s' p') (h' : Steps exec s' p' s'' p'') :
    Steps exec s p s'' p'' := by
  induction h with
  | refl => exact h'
  | op hexec _ ih => exact .op hexec (ih h')

theorem Ends.before (h : Ends exec s p (.ok a) s') (f : α → Prog I β) :
    Steps exec s (p >>= f) s' (f a) := Steps.bind h f

theorem Ends.bind {f : α → Prog I β} {r : Except I.Err β} (h : Ends exec s p (.ok a) s')
    (hf : Ends exec s' (f a) r s'') : Ends exec s (p >>= f) r s'' :=
  (h.before f).trans hf

/-- What is put together returns if both parts do. -/
theorem Ends.of_bind {f : α → Prog I β} {b : β} (h : Ends exec s (p >>= f) (.ok b) s') :
    ∃ a s'', Ends exec s p (.ok a) s'' ∧ Ends exec s'' (f a) (.ok b) s' := by
  induction p generalizing s with
  | done r =>
      cases r with
      | ok a => exact ⟨a, s, .refl s _, h⟩
      | error e => cases h
  | op o k ih =>
      cases h with
      | op hexec hrest =>
          obtain ⟨a, s'', hk, hf⟩ := ih _ hrest
          exact ⟨a, s'', .op hexec hk, hf⟩
  | fork t k => cases h
  | join k => cases h
  | spin => cases h

theorem Ends.attempt (h : Ends exec s p r s') : Ends exec s p.attempt (.ok r) s' :=
  Steps.attempt h

theorem Ends.finally' {cleanup : Prog I Unit} {c : Except I.Err Unit} (h : Ends exec s p r s')
    (hcleanup : Ends exec s' cleanup c s'') : Ends exec s (p.finally' cleanup) r s'' :=
  h.attempt.bind (hcleanup.attempt.bind (.refl _ _))

end Composition

/-! ## Programs that return

What holds if a program returns: a run that throws, or goes on for ever, promises nothing. -/

section Returning

variable {exec} {R R' : α → σ → Prop} {s s' : σ}

variable (exec) in
/-- If the program returns, then in `R`. -/
def IfReturns (p : Prog I α) (R : α → σ → Prop) (s : σ) : Prop :=
  wp exec True p (fun r s' => ∀ a, r = .ok a → R a s') s

@[simp] theorem ifReturns_ok {a : α} : IfReturns exec (done (.ok a)) R s ↔ R a s := by
  simp [IfReturns]

@[simp] theorem ifReturns_error {e : I.Err} : IfReturns exec (done (.error e)) R s := by
  simp [IfReturns]

@[simp] theorem ifReturns_spin : IfReturns exec (spin : Prog I α) R s := trivial

@[simp] theorem ifReturns_op {o : I.Op} {k : I.Ret o → Prog I α} :
    IfReturns exec (op o k) R s ↔ ∀ x s', exec o s x s' → IfReturns exec (k x) R s' := Iff.rfl

@[simp] theorem ifReturns_perform {o : I.Op} {R : I.Ret o → σ → Prop} :
    IfReturns exec (perform o) R s ↔ ∀ x s', exec o s x s' → R x s' := by
  simp [perform]

theorem IfReturns.mono {p : Prog I α} (h : IfReturns exec p R s) (hR : ∀ a s, R a s → R' a s) :
    IfReturns exec p R' s :=
  wp_mono h fun _ _ hr a ha => hR a _ (hr a ha)

@[simp] theorem ifReturns_bind {p : Prog I α} {f : α → Prog I β} {R : β → σ → Prop} :
    IfReturns exec (p.bind f) R s ↔ IfReturns exec p (fun a => IfReturns exec (f a) R) s := by
  rw [IfReturns, wp_bind]
  constructor
  · exact fun h => wp_mono h fun r s' hr a ha => by
      subst ha
      exact hr
  · refine fun h => wp_mono h fun r s' hr => ?_
    cases r with
    | ok a => exact hr a rfl
    | error e => exact fun b hb => by cases hb

/-- A handler that throws again. -/
theorem IfReturns.attempt_bind {p : Prog I α} {f : Except I.Err α → Prog I β} {R : β → σ → Prop}
    (h : wp exec True p (fun r s' => IfReturns exec (f r) R s') s) :
    IfReturns exec (p.attempt.bind f) R s := by
  rw [ifReturns_bind, IfReturns, wp_attempt]
  refine wp_mono h fun r s' hr a ha => ?_
  cases ha
  exact hr

theorem IfReturns.ends {p : Prog I α} {a : α} (h : IfReturns exec p R s)
    (hends : Ends exec s p (.ok a) s') : R a s' := wp.ends h hends a rfl

end Returning

/-! ## Operations that are functions -/

section Functions

/-- The run of a program whose operations have one outcome. -/
def runWith (perform : (o : I.Op) → σ → I.Ret o × σ) : Prog I α → σ → Option (Except I.Err α × σ)
  | done r, s => some (r, s)
  | op o k, s => runWith perform (k (perform o s).1) (perform o s).2
  | fork _ _, _ => none
  | join _, _ => none
  | spin, _ => none

theorem ends_of_runWith {perform : (o : I.Op) → σ → I.Ret o × σ} {p : Prog I α} {s s' : σ}
    {r : Except I.Err α} (h : runWith perform p s = some (r, s')) :
    Ends (fun o s x s' => (x, s') = perform o s) s p r s' := by
  induction p generalizing s with
  | done e =>
      cases h
      exact .refl _ _
  | op o k ih => exact .op rfl (ih _ h)
  | fork t k => cases h
  | join k => cases h
  | spin => cases h

end Functions

/-- What the steps of one process keep holds after it has taken some, while nothing else happens. -/
theorem Steps.keeps {ι : Type} [DecidableEq ι] {exec : ι → Exec I σ} {body : I.Task → Prog I Unit}
    {outside : σ → σ → Prop} {init : Machine I σ ι α → Prop} {i : ι} {s s' : σ}
    {process : ι → Process I α} {p' : Prog I α} {P : Machine I σ ι α → Prop}
    (hstep : ∀ m m', P m → (machine exec body outside init).step m (.process i) m' → P m')
    (hP : P ⟨s, process⟩) (h : Steps (exec i) s (process i).main s' p') :
    P ⟨s', Function.update process i ⟨p', (process i).tasks⟩⟩ := by
  generalize hp : (process i).main = p at h
  induction h generalizing process with
  | refl s p =>
      rw [show (⟨p, (process i).tasks⟩ : Process I α) = process i by rw [← hp],
        Function.update_eq_self]
      exact hP
  | @op s s₁ _ o k x _ hexec _ ih =>
      have hproc : ProcessStep (exec i) body s (process i) s₁ ⟨k x, (process i).tasks⟩ := by
        rw [show process i = ⟨.op o k, (process i).tasks⟩ by rw [← hp]]
        exact .op hexec
      have hfirst : (machine exec body outside init).step ⟨s, process⟩ (.process i)
          ⟨s₁, Function.update process i ⟨k x, (process i).tasks⟩⟩ := ⟨_, hproc, rfl⟩
      have hrest := ih (hstep _ _ hP hfirst) (by rw [Function.update_self])
      rw [Function.update_self, Function.update_idem] at hrest
      exact hrest

/-- A process takes its steps while nothing else happens. -/
theorem Steps.reachable {ι : Type} [DecidableEq ι] {exec : ι → Exec I σ} {body : I.Task → Prog I Unit}
    {outside : σ → σ → Prop} {init : Machine I σ ι α → Prop} {i : ι} {s s' : σ}
    {process : ι → Process I α} {p' : Prog I α}
    (hreach : (machine exec body outside init).Reachable ⟨s, process⟩)
    (h : Steps (exec i) s (process i).main s' p') :
    (machine exec body outside init).Reachable
      ⟨s', Function.update process i ⟨p', (process i).tasks⟩⟩ :=
  h.keeps (fun _ _ hm hstep => hm.step hstep) hreach

end Prog

end Foundation
end Archinix
