import Mathlib.Tactic

/-!
# Labelled transition systems

States, initial states and labelled steps; runs as the steps taken in order;
the invariant rule; and the relation by which one system simulates another.
-/

namespace Archinix
namespace Foundation

/-- A labelled transition system. -/
structure TransitionSystem (σ : Type*) (label : Type*) where
  init : σ → Prop
  step : σ → label → σ → Prop

namespace TransitionSystem

variable {σ τ label : Type*}

/-- The runs of a system from a given state, with the labels of their steps. -/
inductive Run (S : TransitionSystem σ label) : σ → List label → σ → Prop
  | refl (s : σ) : Run S s [] s
  | snoc {s t u : σ} {ls : List label} {l : label} (hrun : Run S s ls t)
      (hstep : S.step t l u) : Run S s (ls ++ [l]) u

/-- The states reached from an initial one. -/
def Reachable (S : TransitionSystem σ label) (s : σ) : Prop :=
  ∃ s₀ ls, S.init s₀ ∧ S.Run s₀ ls s

variable {S : TransitionSystem σ label}

theorem Reachable.of_init {s : σ} (h : S.init s) : S.Reachable s := ⟨s, [], h, .refl s⟩

theorem Reachable.step {s t : σ} {l : label} (h : S.Reachable s) (hstep : S.step s l t) :
    S.Reachable t := by
  obtain ⟨s₀, ls, hinit, hrun⟩ := h
  exact ⟨s₀, ls ++ [l], hinit, hrun.snoc hstep⟩

/-- What every step preserves holds along every run. -/
theorem Run.preserves {P : σ → Prop} (hstep : ∀ s l t, P s → S.step s l t → P t) {s t : σ}
    {ls : List label} (h : S.Run s ls t) (hs : P s) : P t := by
  induction h with
  | refl => exact hs
  | snoc _ hlast ih => exact hstep _ _ _ ih hlast

/-- The invariant rule: what holds initially and is preserved by every step
holds in every reachable state. -/
theorem Reachable.invariant {P : σ → Prop} (hinit : ∀ s, S.init s → P s)
    (hstep : ∀ s l t, P s → S.step s l t → P t) {s : σ} (h : S.Reachable s) : P s := by
  obtain ⟨s₀, ls, hs₀, hrun⟩ := h
  exact hrun.preserves hstep (hinit s₀ hs₀)

/-- The runs whose steps all meet a condition on the state before the step. -/
def restrict (S : TransitionSystem σ label) (cond : σ → label → Prop) :
    TransitionSystem σ label where
  init := S.init
  step s l t := S.step s l t ∧ cond s l

theorem Reachable.of_restrict {cond : σ → label → Prop} {s : σ}
    (h : (S.restrict cond).Reachable s) : S.Reachable s :=
  h.invariant (fun _ hinit => .of_init hinit) fun _ _ _ hs hstep => hs.step hstep.1

theorem Run.trans {s t u : σ} {ls ms : List label} (h₁ : S.Run s ls t) (h₂ : S.Run t ms u) :
    S.Run s (ls ++ ms) u := by
  induction h₂ with
  | refl => simpa using h₁
  | snoc _ hlast ih => simpa using ih.snoc hlast

/-- The first steps of an infinite run. -/
theorem run_range {f : Nat → σ} {labels : Nat → label} (h : ∀ n, S.step (f n) (labels n) (f (n + 1)))
    (n : Nat) : S.Run (f 0) ((List.range n).map labels) (f n) := by
  induction n with
  | zero => exact .refl _
  | succ n ih =>
      rw [List.range_succ, List.map_append]
      exact ih.snoc (h n)

/-- The system whose steps a partial function computes. -/
def ofStep (init : σ → Prop) (next : σ → label → Option σ) : TransitionSystem σ label where
  init := init
  step s l t := next s l = some t

/-- Take the steps of a list of labels. -/
def follow (next : σ → label → Option σ) (s : σ) : List label → Option σ
  | [] => some s
  | l :: ls => (next s l).bind fun t => follow next t ls

theorem run_of_follow {init : σ → Prop} {next : σ → label → Option σ} {s t : σ} {ls : List label}
    (h : follow next s ls = some t) : (ofStep init next).Run s ls t := by
  induction ls generalizing s with
  | nil =>
      obtain rfl := Option.some.inj h
      exact .refl s
  | cons l ls ih =>
      obtain ⟨u, hstep, hrest⟩ := Option.bind_eq_some_iff.mp h
      have hfirst : (ofStep init next).Run s ([] ++ [l]) u :=
        (Run.refl (S := ofStep init next) s).snoc hstep
      exact hfirst.trans (ih hrest)

theorem Reachable.of_steps {init : σ → Prop} {next : σ → label → Option σ} {s t : σ}
    (hs : (ofStep init next).Reachable s) (ls : List label)
    (h : follow next s ls = some t) : (ofStep init next).Reachable t := by
  obtain ⟨s₀, ls₀, hinit, hrun⟩ := hs
  exact ⟨s₀, ls₀ ++ ls, hinit, hrun.trans (run_of_follow h)⟩

/-- Steps that check the condition before they are taken. -/
theorem Reachable.of_guarded {init : σ → Prop} {next : σ → label → Option σ}
    {cond : σ → label → Prop} [∀ s l, Decidable (cond s l)] {s : σ}
    (h : (ofStep init fun s l => if cond s l then next s l else none).Reachable s) :
    ((ofStep init next).restrict cond).Reachable s := by
  refine h.invariant (fun _ hinit => .of_init hinit) fun s l t hs hstep => ?_
  by_cases hcond : cond s l
  · exact hs.step ⟨(if_pos hcond).symm.trans hstep, hcond⟩
  · have hnone := (if_neg hcond).symm.trans hstep
    cases hnone

/-- Steps whose labels meet the condition in every state. -/
theorem Run.of_follow {init : σ → Prop} {next : σ → label → Option σ} {cond : σ → label → Prop}
    {s t : σ} {ls : List label} (hcond : ∀ l ∈ ls, ∀ u, cond u l) (h : follow next s ls = some t) :
    ((ofStep init next).restrict cond).Run s ls t := by
  induction ls generalizing s with
  | nil =>
      obtain rfl := Option.some.inj h
      exact .refl s
  | cons l ls ih =>
      obtain ⟨u, hstep, hrest⟩ := Option.bind_eq_some_iff.mp h
      have hfirst : ((ofStep init next).restrict cond).Run s ([] ++ [l]) u :=
        (Run.refl s).snoc ⟨hstep, hcond l List.mem_cons_self s⟩
      exact hfirst.trans (ih (fun m hm => hcond m (List.mem_cons_of_mem _ hm)) hrest)

theorem Reachable.of_follow {init : σ → Prop} {next : σ → label → Option σ}
    {cond : σ → label → Prop} {s t : σ}
    (hs : ((ofStep init next).restrict cond).Reachable s) (ls : List label)
    (hcond : ∀ l ∈ ls, ∀ u, cond u l) (h : follow next s ls = some t) :
    ((ofStep init next).restrict cond).Reachable t := by
  obtain ⟨s₀, ls₀, hinit, hrun⟩ := hs
  exact ⟨s₀, ls₀ ++ ls, hinit, hrun.trans (.of_follow hcond h)⟩

end TransitionSystem

section Often

variable {p : Nat → Bool}

/-- What happens only before a moment happens no more often than there are moments before
it. -/
theorem countP_range_le {bound : Nat} (h : ∀ m, bound ≤ m → p m = false) (n : Nat) :
    (List.range n).countP p ≤ bound := by
  suffices hmin : (List.range n).countP p ≤ min n bound from hmin.trans (Nat.min_le_right _ _)
  induction n with
  | zero => exact Nat.zero_le _
  | succ n ih =>
      rw [List.range_succ, List.countP_append, List.countP_singleton]
      by_cases hn : bound ≤ n
      · rw [h n hn]
        simp only [Bool.false_eq_true, if_false]
        omega
      · split <;> omega

/-- What happens again and again happens any number of times. -/
theorem exists_le_countP_range (h : ∀ n, ∃ m, n ≤ m ∧ p m = true) (k : Nat) :
    ∃ n, k ≤ (List.range n).countP p := by
  induction k with
  | zero => exact ⟨0, Nat.zero_le _⟩
  | succ k ih =>
      obtain ⟨n, hn⟩ := ih
      obtain ⟨m, hle, hm⟩ := h n
      refine ⟨m + 1, ?_⟩
      have hmono : (List.range n).countP p ≤ (List.range m).countP p :=
        (List.range_sublist.2 hle).countP_le
      rw [List.range_succ, List.countP_append, List.countP_singleton, hm, if_pos rfl]
      omega

end Often

end Foundation
end Archinix
