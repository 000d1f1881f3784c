import Archinix.Foundation.Sequential

/-!
# Programs and their histories

What a program asked for on the way and what it was answered, in order and with
the state each operation was asked in; and the weakest precondition calculus for
postconditions that speak about it.  Like `Prog.wp` it is a recursion on the
program, whose rules put the histories of the parts one after the other.
-/

namespace Archinix
namespace Foundation

/-- An operation a program performed, the state it was performed in, and the
answer. -/
structure Event (I : Interface) (σ : Type) where
  op : I.Op
  before : σ
  answer : I.Ret op

namespace Prog

variable {I : Interface} {σ α β : Type} (exec : Exec I σ)

/-- The program, started in the first state, may perform the operations of the
list one after the other and end in the second. -/
inductive History : σ → Prog I α → List (Event I σ) → Except I.Err α → σ → Prop
  | done (s : σ) (r : Except I.Err α) : History s (.done r) [] r s
  | op {s s' s'' : σ} {o : I.Op} {k : I.Ret o → Prog I α} {x : I.Ret o} {r : Except I.Err α}
      {es : List (Event I σ)} (h : exec o s x s') (rest : History s' (k x) es r s'') :
      History s (.op o k) (⟨o, s, x⟩ :: es) r s''

/-- The weakest precondition for every run of a program to end in `Q`, which is
told the history of the run. -/
def wpHistory (deep : Prop) :
    Prog I α → (Except I.Err α → σ → List (Event I σ) → Prop) → σ → Prop
  | done r, Q, s => Q r s []
  | op o k, Q, s => ∀ x s', exec o s x s' →
      wpHistory deep (k x) (fun r s'' es => Q r s'' (⟨o, s, x⟩ :: es)) s'
  | fork _ _, _, _ => False
  | join _, _, _ => False
  | spin, _, _ => deep

variable {exec} {deep : Prop} {s s' : σ}

section Runs

variable {p : Prog I α} {r : Except I.Err α} {es : List (Event I σ)}

theorem History.ends (h : History exec s p es r s') : Ends exec s p r s' := by
  induction h with
  | done s r => exact .refl s _
  | op hexec _ ih => exact .op hexec ih

/-- Every run that ends has a history. -/
theorem exists_history (h : Ends exec s p r s') : ∃ es, History exec s p es r s' := by
  generalize hq : (done r : Prog I α) = q at h
  replace h : Steps exec s p s' q := hq ▸ h
  induction h with
  | refl s p =>
      subst hq
      exact ⟨[], .done s r⟩
  | op hexec _ ih =>
      obtain ⟨es, hes⟩ := ih hq
      exact ⟨_, .op hexec hes⟩

theorem wpHistory.history {Q : Except I.Err α → σ → List (Event I σ) → Prop}
    (h : wpHistory exec deep p Q s) (hrun : History exec s p es r s') : Q r s' es := by
  induction hrun generalizing Q with
  | done s r => exact h
  | op hexec _ ih => exact ih (h _ _ hexec)

end Runs

section Rules

variable {Q Q' : Except I.Err α → σ → List (Event I σ) → Prop}

theorem wpHistory_mono {p : Prog I α} (h : wpHistory exec deep p Q s)
    (hQ : ∀ r s es, Q r s es → Q' r s es) : wpHistory exec deep p Q' s := by
  induction p generalizing s Q Q' with
  | done r => exact hQ r s [] h
  | op o k ih => exact fun x s' hexec => ih x (h x s' hexec) fun r s es => hQ r s _
  | fork t k => exact h
  | join k => exact h
  | spin => exact h

/-- What does not depend on the history. -/
theorem wp.withHistory {R : Except I.Err α → σ → Prop} {p : Prog I α} (h : wp exec deep p R s) :
    wpHistory exec deep p (fun r s _ => R r s) s := by
  induction p generalizing s with
  | done r => exact h
  | op o k ih => exact fun x s' hexec => ih x (h x s' hexec)
  | fork t k => exact h
  | join k => exact h
  | spin => exact h

theorem wpHistory.forget {R : Except I.Err α → σ → Prop} {p : Prog I α}
    (h : wpHistory exec deep p (fun r s _ => R r s) s) : wp exec deep p R s := by
  induction p generalizing s with
  | done r => exact h
  | op o k ih => exact fun x s' hexec => ih x (h x s' hexec)
  | fork t k => exact h
  | join k => exact h
  | spin => exact h

/-- Sequencing: the second history follows the first. -/
theorem wpHistory_bind {p : Prog I α} {f : α → Prog I β}
    {R : Except I.Err β → σ → List (Event I σ) → Prop}
    (h : wpHistory exec deep p (fun r s' es => match r with
      | .ok a => wpHistory exec deep (f a) (fun r s'' es' => R r s'' (es ++ es')) s'
      | .error e => R (.error e) s' es) s) :
    wpHistory exec deep (p.bind f) R s := by
  induction p generalizing s R with
  | done r =>
      cases r with
      | ok a => exact h
      | error e => exact h
  | op o k ih => exact fun x s' hexec => ih x (h x s' hexec)
  | fork t k => exact h
  | join k => exact h
  | spin => exact h

/-- A loop over a list with a value carried from round to round. -/
theorem wpHistory_foldlM {γ : Type} {l : List β} {f : γ → β → Prog I γ} {c : γ}
    {R : Except I.Err γ → σ → List (Event I σ) → Prop}
    (Inv : List β → γ → σ → List (Event I σ) → Prop)
    (hround : ∀ b rest c s es, Inv (b :: rest) c s es → wpHistory exec deep (f c b)
      (fun r s es' => match r with
        | .ok c => Inv rest c s (es ++ es')
        | .error e => R (.error e) s (es ++ es')) s)
    (hend : ∀ c s es, Inv [] c s es → R (.ok c) s es) (h : Inv l c s []) :
    wpHistory exec deep (l.foldlM f c) R s := by
  -- the rounds before this one have made the events `before`
  have hgo : ∀ (l : List β) c s before, Inv l c s before →
      wpHistory exec deep (l.foldlM f c) (fun r s es => R r s (before ++ es)) s := by
    intro l
    induction l with
    | nil =>
        intro c s before hinv
        show R (.ok c) s (before ++ [])
        rw [List.append_nil]
        exact hend c s before hinv
    | cons b rest ih =>
        intro c s before hinv
        rw [List.foldlM_cons, bind_def]
        apply wpHistory_bind
        apply wpHistory_mono (hround b rest c s before hinv)
        intro r s' es hr
        cases r with
        | ok c' =>
            apply wpHistory_mono (ih c' s' (before ++ es) hr)
            intro r s'' es' hr'
            rwa [← List.append_assoc]
        | error e => exact hr
  exact hgo l c s [] h

end Rules

end Prog

end Foundation
end Archinix
