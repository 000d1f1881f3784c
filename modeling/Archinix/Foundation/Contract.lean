import Archinix.Foundation.Program

/-!
# Contracts

What a thread may ask for and what the answers tell it, in terms of what it holds: a
value that only its own steps change.  `Prog.Meets` says that a program keeps to such a
contract; it is a recursion on the program that never looks at the shared state.

Where an invariant ties the shared state to what all threads hold, and every step that
the contract allows keeps it, `machine_meets` carries the invariant and the contract
through every run of a machine.
-/

namespace Archinix
namespace Foundation

/-- What may be asked for, what the answer may be and what is held after it; what is
handed to a task that is started; and what a process holds once its tasks have ended. -/
structure Contract (I : Interface) (ρ : Type*) where
  pre : I.Op → ρ → Prop
  post : (o : I.Op) → ρ → I.Ret o → ρ → Prop
  /-- Held before, held after, held by the task. -/
  fork : I.Task → ρ → ρ → ρ → Prop
  join : ρ → ρ → Prop

namespace Prog

variable {I : Interface} {ρ : Type*} {α β : Type}

/-- The program asks for nothing that its contract does not allow, and ends in `Q`.  A
recursion that goes deeper than it was unrolled to may assume `deep`. -/
def Meets (C : Contract I ρ) (deep : Prop) :
    Prog I α → (Except I.Err α → ρ → Prop) → ρ → Prop
  | done e, Q, r => Q e r
  | op o k, Q, r => C.pre o r ∧ ∀ x r', C.post o r x r' → Meets C deep (k x) Q r'
  | fork t k, Q, r => ∃ r' held, C.fork t r r' held ∧ Meets C deep k Q r'
  | join k, Q, r => ∀ r', C.join r r' → Meets C deep k Q r'
  | spin, _, _ => deep

section Rules

variable {C : Contract I ρ} {deep : Prop} {Q Q' : Except I.Err α → ρ → Prop} {r : ρ}

@[simp] theorem meets_done {e : Except I.Err α} : (done e).Meets C deep Q r ↔ Q e r := Iff.rfl

@[simp] theorem meets_op {o : I.Op} {k : I.Ret o → Prog I α} : (op o k).Meets C deep Q r ↔
    C.pre o r ∧ ∀ x r', C.post o r x r' → (k x).Meets C deep Q r' := Iff.rfl

theorem Meets.mono {p : Prog I α} (h : p.Meets C deep Q r) (hQ : ∀ e r, Q e r → Q' e r) :
    p.Meets C deep Q' r := by
  induction p generalizing r with
  | done e => exact hQ e r h
  | op o k ih => exact ⟨h.1, fun x r' hpost => ih x (h.2 x r' hpost)⟩
  | fork t k ih =>
      obtain ⟨r', held, hfork, hrest⟩ := h
      exact ⟨r', held, hfork, ih hrest⟩
  | join k ih => exact fun r' hjoin => ih (h r' hjoin)
  | spin => exact h

/-- What a program does next, once its first part has ended. -/
def Continues (C : Contract I ρ) (deep : Prop) (f : α → Prog I β) (Q : Except I.Err β → ρ → Prop) :
    Except I.Err α → ρ → Prop
  | .ok a, r => (f a).Meets C deep Q r
  | .error e, r => Q (.error e) r

@[simp] theorem continues_ok {f : α → Prog I β} {Q : Except I.Err β → ρ → Prop} {a : α} :
    Continues C deep f Q (.ok a) r ↔ (f a).Meets C deep Q r := Iff.rfl

@[simp] theorem continues_error {f : α → Prog I β} {Q : Except I.Err β → ρ → Prop} {e : I.Err} :
    Continues C deep f Q (.error e) r ↔ Q (.error e) r := Iff.rfl

/-- Sequencing. -/
theorem meets_bind {p : Prog I α} {f : α → Prog I β} {Q : Except I.Err β → ρ → Prop} :
    (p.bind f).Meets C deep Q r ↔ p.Meets C deep (Continues C deep f Q) r := by
  induction p generalizing r with
  | done e => cases e <;> rfl
  | op o k ih => simp only [bind, Meets, ih]
  | fork t k ih => simp only [bind, Meets, ih]
  | join k ih => simp only [bind, Meets, ih]
  | spin => rfl

/-- A handler sees how the program ended. -/
theorem meets_attempt {p : Prog I α} {Q : Except I.Err (Except I.Err α) → ρ → Prop} :
    p.attempt.Meets C deep Q r ↔ p.Meets C deep (fun e => Q (.ok e)) r := by
  induction p generalizing r with
  | done e => rfl
  | op o k ih => simp only [attempt, Meets, ih]
  | fork t k ih => simp only [attempt, Meets, ih]
  | join k ih => simp only [attempt, Meets, ih]
  | spin => rfl

/-- What is cleaned up with is run however the program ends. -/
theorem meets_finally' {p : Prog I α} {cleanup : Prog I Unit} :
    (p.finally' cleanup).Meets C deep Q r ↔
      p.Meets C deep (fun e r => cleanup.Meets C deep (fun _ r => Q e r) r) r := by
  have hcleanup : ∀ (e : Except I.Err α) r,
      (cleanup.attempt.bind fun _ => done e).Meets C deep Q r ↔
        cleanup.Meets C deep (fun _ r => Q e r) r := by
    intro e r
    rw [meets_bind, meets_attempt]
    rfl
  rw [finally', meets_bind, meets_attempt]
  exact ⟨fun h => h.mono fun e r => (hcleanup e r).mp, fun h => h.mono fun e r => (hcleanup e r).mpr⟩

/-- A loop over a list keeps what each round keeps; a round that throws ends it. -/
theorem Meets.forM {l : List β} {f : β → Prog I PUnit} {Q : Except I.Err PUnit → ρ → Prop}
    (Inv : List β → ρ → Prop)
    (hround : ∀ b rest r, b ∈ l → Inv (b :: rest) r → (f b).Meets C deep
      (fun e r => match e with | .ok _ => Inv rest r | .error e => Q (.error e) r) r)
    (hend : ∀ r, Inv [] r → Q (.ok ⟨⟩) r) (h : Inv l r) : (l.forM f).Meets C deep Q r := by
  induction l generalizing r with
  | nil => exact hend r h
  | cons b rest ih =>
      simp only [List.forM_eq_forM, List.forM_cons, bind_def, meets_bind] at ih ⊢
      refine (hround b rest r List.mem_cons_self h).mono fun e r hr => ?_
      cases e with
      | ok _ => exact ih (fun b' rest' r' hb' => hround b' rest' r' (List.mem_cons_of_mem b hb')) hr
      | error e => exact hr

end Rules

/-! ## Known results -/

section Known

/-- The program ends, whatever it is answered, and with `r` under a condition. -/
def Gives (C : Contract I ρ) (cond : Prop) (p : Prog I α) (r : Except I.Err α) : Prop :=
  ∀ held, p.Meets C False (fun e _ => cond → e = r) held

variable {C : Contract I ρ} {cond : Prop} {p : Prog I α} {r : Except I.Err α}

theorem gives_pure (a : α) : Gives C cond (pure a) (pure a) := fun _ _ => rfl

theorem gives_throw (e : I.Err) : Gives C cond (throw e : Prog I α) (throw e) := fun _ _ => rfl

theorem Gives.weaken {cond' : Prop} (h : Gives C cond p r) (hcond : cond' → cond) :
    Gives C cond' p r := fun held => (h held).mono fun _ _ he hc => he (hcond hc)

/-- The same result, written in another way. -/
theorem Gives.congr {r' : Except I.Err α} (h : Gives C cond p r) (hr : cond → r = r') :
    Gives C cond p r' := fun held => (h held).mono fun _ _ he hc => (he hc).trans (hr hc)

theorem Gives.mono_at {Q : Except I.Err α → ρ → Prop} (h : Gives C cond p r) (held : ρ)
    (hQ : ∀ e, (cond → e = r) → ∀ held, Q e held) : p.Meets C False Q held :=
  (h held).mono fun e held' he => hQ e he held'

/-- What comes after a known result. -/
theorem Gives.ends {Q : Except I.Err α → ρ → Prop} (h : Gives C True p r) (held : ρ)
    (hQ : ∀ held, Q r held) : p.Meets C False Q held := by
  apply h.mono_at held
  intro e he held'
  obtain rfl := he trivial
  exact hQ held'

/-- Sequencing. -/
theorem Gives.bind {f : α → Prog I β} {g : α → Except I.Err β} (h : Gives C cond p r)
    (hf : ∀ a, (cond → r = .ok a) → Gives C cond (f a) (g a)) :
    Gives C cond (p >>= f) (r >>= g) := by
  intro held
  rw [bind_def, meets_bind]
  apply (h held).mono
  intro e held' he
  cases e with
  | ok a =>
      apply (hf a fun hc => (he hc).symm).mono_at held'
      intro e' he' _ hc
      rw [he' hc, ← he hc]
      rfl
  | error e =>
      intro hc
      rw [← he hc]
      rfl

/-- A handler. -/
theorem Gives.tryCatch {f : I.Err → Prog I α} {g : I.Err → Except I.Err α} (h : Gives C cond p r)
    (hf : ∀ e, (cond → r = .error e) → Gives C cond (f e) (g e)) :
    Gives C cond (tryCatch p f) (tryCatch r g) := by
  intro held
  show (Prog.bind (attempt p) _).Meets C False _ held
  rw [meets_bind, meets_attempt]
  apply (h held).mono
  intro e held' he
  cases e with
  | ok a =>
      intro hc
      rw [← he hc]
      rfl
  | error e =>
      apply (hf e fun hc => (he hc).symm).mono_at held'
      intro e' he' _ hc
      rw [he' hc, ← he hc]
      rfl

end Known

end Prog

/-! ## Machines whose threads keep to a contract -/

section Machine

variable {I : Interface} {σ α ι : Type} {ρ : Type*} [DecidableEq ι]

/-- The threads of a machine: the main program of a process, or one of its tasks. -/
abbrev Thread (ι : Type) := ι × Option Nat

/-- The invariant is kept by what the contract allows, and by the outside. -/
structure Upholds (exec : ι → Exec I σ) (outside : σ → σ → Prop) (C : Contract I ρ) (idle : ρ)
    (Inv : σ → (Thread ι → ρ) → Prop) : Prop where
  op : ∀ s R a o x s', Inv s R → C.pre o (R a) → exec a.1 o s x s' →
    ∃ r', C.post o (R a) x r' ∧ Inv s' (Function.update R a r')
  fork : ∀ s R a b t r' held, Inv s R → C.fork t (R a) r' held → b ≠ a → R b = idle →
    Inv s (Function.update (Function.update R a r') b held)
  join : ∀ s R i, Inv s R → (∀ n, R (i, some n) = idle) →
    ∃ r', C.join (R (i, none)) r' ∧ Inv s (Function.update R (i, none) r')
  outside : ∀ s R s', Inv s R → outside s s' → Inv s' R

/-- Every thread is on its way to meet its contract, and a task that is not running
holds nothing. -/
structure Kept (C : Contract I ρ) (deep : Prop) (idle : ρ) (Q : ι → Except I.Err α → ρ → Prop)
    (process : ι → Process I α) (R : Thread ι → ρ) : Prop where
  main : ∀ i, (process i).main.Meets C deep (Q i) (R (i, none))
  task : ∀ i n p, (process i).tasks n = some p →
    p.Meets C deep (fun _ r => r = idle) (R (i, some n))
  absent : ∀ i n, (process i).tasks n = none → R (i, some n) = idle

variable {exec : ι → Exec I σ} {body : I.Task → Prog I Unit} {outside : σ → σ → Prop}
  {C : Contract I ρ} {deep : Prop} {idle : ρ} {Q : ι → Except I.Err α → ρ → Prop}
  {Inv : σ → (Thread ι → ρ) → Prop} {process : ι → Process I α} {R : Thread ι → ρ}

namespace Kept

omit [DecidableEq ι] in
/-- Tasks that have all ended hold nothing. -/
theorem idle_of_finished (h : Kept C deep idle Q process R) {i : ι}
    (hdone : ∀ n t, (process i).tasks n = some t → t.Finished) (n : Nat) : R (i, some n) = idle := by
  cases htask : (process i).tasks n with
  | none => exact h.absent i n htask
  | some p =>
      have hmeets := h.task i n p htask
      have hfinished := hdone n p htask
      cases p with
      | done e => exact hmeets
      | op | fork | join | spin => exact hfinished.elim

/-- The main program goes on. -/
theorem setMain (h : Kept C deep idle Q process R) {i : ι} {p : Prog I α} {r : ρ}
    (hp : p.Meets C deep (Q i) r) :
    Kept C deep idle Q (Function.update process i ⟨p, (process i).tasks⟩)
      (Function.update R (i, none) r) where
  main j := by
    by_cases hj : j = i
    · subst hj
      simpa using hp
    · simpa [hj] using h.main j
  task j n q hq := by
    by_cases hj : j = i
    · subst hj
      simpa using h.task j n q (by simpa using hq)
    · simpa [hj] using h.task j n q (by simpa [hj] using hq)
  absent j n hn := by
    by_cases hj : j = i
    · subst hj
      simpa using h.absent j n (by simpa using hn)
    · simpa [hj] using h.absent j n (by simpa [hj] using hn)

/-- A task goes on, or starts. -/
theorem setTask (h : Kept C deep idle Q process R) {i : ι} {n : Nat} {p : Prog I Unit} {r : ρ}
    (hp : p.Meets C deep (fun _ r => r = idle) r) :
    Kept C deep idle Q
      (Function.update process i ⟨(process i).main, Function.update (process i).tasks n (some p)⟩)
      (Function.update R (i, some n) r) where
  main j := by
    by_cases hj : j = i
    · subst hj
      simpa using h.main j
    · simpa [hj] using h.main j
  task j m q hq := by
    by_cases hself : j = i ∧ m = n
    · obtain ⟨rfl, rfl⟩ := hself
      obtain rfl : p = q := by simpa using hq
      simpa using hp
    · have hne : (j, some m) ≠ (i, some n) := by
        intro heq
        exact hself ⟨congrArg Prod.fst heq, Option.some.inj (congrArg Prod.snd heq)⟩
      rw [Function.update_of_ne hne]
      refine h.task j m q ?_
      by_cases hj : j = i
      · subst hj
        have hm : m ≠ n := fun hm => hself ⟨rfl, hm⟩
        simpa [hm] using hq
      · simpa [hj] using hq
  absent j m hm := by
    by_cases hself : j = i ∧ m = n
    · obtain ⟨rfl, rfl⟩ := hself
      simp at hm
    · have hne : (j, some m) ≠ (i, some n) := by
        intro heq
        exact hself ⟨congrArg Prod.fst heq, Option.some.inj (congrArg Prod.snd heq)⟩
      rw [Function.update_of_ne hne]
      refine h.absent j m ?_
      by_cases hj : j = i
      · subst hj
        have hmn : m ≠ n := fun hmn => hself ⟨rfl, hmn⟩
        simpa [hmn] using hm
      · simpa [hj] using hm

/-- The main program goes on after its tasks. -/
theorem joinTasks (h : Kept C deep idle Q process R) {i : ι} {p : Prog I α} {r : ρ}
    (hidle : ∀ n, R (i, some n) = idle) (hp : p.Meets C deep (Q i) r) :
    Kept C deep idle Q (Function.update process i ⟨p, fun _ => none⟩)
      (Function.update R (i, none) r) where
  main j := by
    by_cases hj : j = i
    · subst hj
      simpa using hp
    · simpa [hj] using h.main j
  task j n q hq := by
    by_cases hj : j = i
    · subst hj
      simp at hq
    · simpa [hj] using h.task j n q (by simpa [hj] using hq)
  absent j n hn := by
    by_cases hj : j = i
    · subst hj
      simpa using hidle n
    · simpa [hj] using h.absent j n (by simpa [hj] using hn)

end Kept

omit [DecidableEq ι] in
/-- A step leaves the state alone, or is an operation that the contract allows. -/
theorem Kept.step_cases (h : Kept C deep idle Q process R) {s s' : σ} {i : ι} {p : Process I α}
    (hstep : ProcessStep (exec i) body s (process i) s' p) :
    s' = s ∨ ∃ (a : Thread ι) (o : I.Op) (x : I.Ret o), a.1 = i ∧ C.pre o (R a) ∧ exec i o s x s' := by
  have hmain := h.main i
  generalize hproc : process i = q at hstep hmain
  cases hstep with
  | @op _ o k x tasks hexec => exact Or.inr ⟨(i, none), o, x, rfl, hmain.1, hexec⟩
  | @taskOp _ main tasks n o k x htask hexec =>
      have hmeets := h.task i n _ (by rw [hproc]; exact htask)
      exact Or.inr ⟨(i, some n), o, x, rfl, hmeets.1, hexec⟩
  | fork => exact Or.inl rfl
  | join => exact Or.inl rfl
  | taskFork => exact Or.inl rfl

/-- A step of a process keeps the invariant and the contract. -/
theorem Kept.processStep (hup : Upholds exec outside C idle Inv)
    (hbody : ∀ t r r' held, C.fork t r r' held → (body t).Meets C deep (fun _ r => r = idle) held)
    (h : Kept C deep idle Q process R) {s s' : σ} {i : ι} {p : Process I α} (hinv : Inv s R)
    (hstep : ProcessStep (exec i) body s (process i) s' p) :
    ∃ R', Inv s' R' ∧ Kept C deep idle Q (Function.update process i p) R' := by
  have hmain := h.main i
  generalize hproc : process i = q at hstep hmain
  cases hstep with
  | @op _ o k x tasks hexec =>
      obtain ⟨r', hpost, hinv'⟩ := hup.op s R (i, none) o x s' hinv hmain.1 hexec
      have hkept := h.setMain (hmain.2 x r' hpost)
      rw [hproc] at hkept
      exact ⟨_, hinv', hkept⟩
  | @fork t k tasks n hfresh =>
      obtain ⟨r', held, hfork, hrest⟩ := hmain
      have hidle := h.absent i n (by rw [hproc]; exact hfresh)
      have hkept := (h.setMain hrest).setTask (i := i) (n := n) (hbody t _ _ _ hfork)
      simp only [Function.update_self, Function.update_idem, hproc] at hkept
      exact ⟨_, hup.fork s R (i, none) (i, some n) t r' held hinv hfork (by simp) hidle, hkept⟩
  | @join k tasks hdone =>
      have hidle := h.idle_of_finished (i := i) (by rw [hproc]; exact hdone)
      obtain ⟨r', hjoin, hinv'⟩ := hup.join s R i hinv hidle
      exact ⟨_, hinv', h.joinTasks hidle (hmain r' hjoin)⟩
  | @taskOp _ main tasks n o k x htask hexec =>
      have hmeets := h.task i n _ (by rw [hproc]; exact htask)
      obtain ⟨r', hpost, hinv'⟩ := hup.op s R (i, some n) o x s' hinv hmeets.1 hexec
      have hkept := h.setTask (i := i) (n := n) (hmeets.2 x r' hpost)
      rw [hproc] at hkept
      exact ⟨_, hinv', hkept⟩
  | @taskFork main tasks n m t k htask hfresh =>
      obtain ⟨r', held, hfork, hrest⟩ := h.task i n _ (by rw [hproc]; exact htask)
      have hidle := h.absent i m (by rw [hproc]; exact hfresh)
      have hmn : m ≠ n := by
        rintro rfl
        rw [htask] at hfresh
        cases hfresh
      have hkept := (h.setTask (i := i) (n := n) hrest).setTask (i := i) (n := m)
        (hbody t _ _ _ hfork)
      simp only [Function.update_self, Function.update_idem, hproc] at hkept
      exact ⟨_, hup.fork s R (i, some n) (i, some m) t r' held hinv hfork (by simp [hmn]) hidle,
        hkept⟩

/-- The invariant and the contract hold in every state that a machine reaches. -/
theorem machine_meets (hup : Upholds exec outside C idle Inv)
    (hbody : ∀ t r r' held, C.fork t r r' held → (body t).Meets C deep (fun _ r => r = idle) held)
    {init : Machine I σ ι α → Prop}
    (hinit : ∀ m, init m → ∃ R, Inv m.state R ∧ Kept C deep idle Q m.process R)
    {m : Machine I σ ι α} (h : (machine exec body outside init).Reachable m) :
    ∃ R, Inv m.state R ∧ Kept C deep idle Q m.process R := by
  refine h.invariant hinit ?_
  rintro m a m' ⟨R, hinv, hkept⟩ hstep
  cases a with
  | process i =>
      obtain ⟨p, hproc, hm'⟩ := hstep
      rw [hm']
      exact hkept.processStep hup hbody hinv hproc
  | outside =>
      obtain ⟨hout, hm'⟩ := hstep
      rw [hm']
      exact ⟨R, hup.outside _ _ _ hinv hout, hkept⟩

/-! ## Programs without tasks -/

theorem ProcessStep.tasks_none [IsEmpty I.Task] {exec : Exec I σ} {s s' : σ} {p p' : Process I α}
    (hstep : ProcessStep exec body s p s' p') (h : p.tasks = fun _ => none) :
    p'.tasks = fun _ => none := by
  cases hstep with
  | op => exact h
  | @fork t => exact isEmptyElim t
  | join => rfl
  | @taskOp _ _ _ n _ _ _ htask => exact absurd (congrFun h n) (by simp [htask])
  | @taskFork _ _ _ _ t => exact isEmptyElim t

theorem tasks_none [IsEmpty I.Task] {init : Machine I σ ι α → Prop}
    (hinit : ∀ m, init m → ∀ i, (m.process i).tasks = fun _ => none) {m : Machine I σ ι α}
    (h : (machine exec body outside init).Reachable m) : ∀ i, (m.process i).tasks = fun _ => none := by
  refine h.invariant hinit ?_
  intro m a m' hnone hstep j
  cases a with
  | outside => rw [hstep.2, hnone j]
  | process i =>
      obtain ⟨p, hproc, hm'⟩ := hstep
      rw [hm']
      by_cases hj : j = i
      · subst hj
        rw [Function.update_self]
        exact hproc.tasks_none (hnone j)
      · rw [Function.update_of_ne hj, hnone j]

/-- Where every step meets a condition, a machine whose operations all meet it can take it. -/
theorem reachable_of_restrict [IsEmpty I.Task] {init : Machine I σ ι α → Prop}
    {cond : Machine I σ ι α → Actor ι → Prop} {may : ι → I.Op → σ → Prop}
    (hinit : ∀ m, init m → ∀ i, (m.process i).tasks = fun _ => none)
    (hcond : ∀ m i o k, cond m (.process i) → (m.process i).main = .op o k → may i o m.state)
    {m : Machine I σ ι α} (h : ((machine exec body outside init).restrict cond).Reachable m) :
    (machine (fun i o s x s' => may i o s ∧ exec i o s x s') body outside init).Reachable m := by
  refine h.invariant (fun _ hm => .of_init hm) ?_
  rintro m a m' hreach ⟨hstep, hmeets⟩
  refine hreach.step (l := a) ?_
  cases a with
  | outside => exact hstep
  | process i =>
      obtain ⟨p, hproc, hm'⟩ := hstep
      refine ⟨p, ?_, hm'⟩
      have hnone := tasks_none hinit hreach i
      have hmain := hcond m i
      generalize m.process i = q at hproc hnone hmain ⊢
      generalize m.state = s, m'.state = s' at hproc hmain ⊢
      cases hproc with
      | op hexec => exact .op ⟨hmain _ _ hmeets rfl, hexec⟩
      | @fork t => exact isEmptyElim t
      | join hdone => exact .join hdone
      | @taskOp _ _ _ n _ _ _ htask => exact absurd (congrFun hnone n) (by simp [htask])
      | @taskFork _ _ _ _ t => exact isEmptyElim t

/-- The process can be run to its end by itself. -/
def CanFinish (exec : ι → Exec I σ) (body : I.Task → Prog I Unit) (outside : σ → σ → Prop)
    (init : Machine I σ ι α → Prop) (i : ι) (m : Machine I σ ι α) : Prop :=
  ∃ ls m', (machine exec body outside init).Run m ls m' ∧ (∀ l ∈ ls, l = .process i) ∧
    (m'.process i).main.Finished

theorem CanFinish.of_step {init : Machine I σ ι α → Prop} {i : ι} {m : Machine I σ ι α} {s' : σ}
    {p : Process I α} (hstep : ProcessStep (exec i) body m.state (m.process i) s' p)
    (h : CanFinish exec body outside init i ⟨s', Function.update m.process i p⟩) :
    CanFinish exec body outside init i m := by
  obtain ⟨ls, m', hrun, hown, hfinished⟩ := h
  have hfirst : (machine exec body outside init).step m (.process i)
      ⟨s', Function.update m.process i p⟩ := ⟨p, hstep, rfl⟩
  refine ⟨_, m', ((TransitionSystem.Run.refl m).snoc hfirst).trans hrun, ?_, hfinished⟩
  intro l hl
  rcases List.mem_cons.1 hl with rfl | hl
  · rfl
  · exact hown l hl

/-- From every state in which the contract holds, a process without tasks can go on to its
end, whatever the others have done. -/
theorem Kept.canFinish [IsEmpty I.Task] {i : ι} (hup : Upholds exec outside C idle Inv)
    (htotal : ∀ o s, ∃ x s', exec i o s x s') {init : Machine I σ ι α → Prop}
    {m : Machine I σ ι α} (hinv : Inv m.state R) (h : Kept C False idle Q m.process R)
    (htasks : (m.process i).tasks = fun _ => none) : CanFinish exec body outside init i m := by
  have hbody : ∀ t r r' held, C.fork t r r' held →
      (body t).Meets C False (fun _ r => r = idle) held := fun t => isEmptyElim t
  generalize hp : (m.process i).main = p
  induction p generalizing m R with
  | done e => exact ⟨[], m, .refl m, by simp, by rw [hp]; trivial⟩
  | op o k ih =>
      obtain ⟨x, s', hexec⟩ := htotal o m.state
      have hstep : ProcessStep (exec i) body m.state (m.process i) s' ⟨k x, fun _ => none⟩ := by
        rw [show m.process i = ⟨.op o k, fun _ => none⟩ by rw [← hp, ← htasks]]
        exact .op hexec
      obtain ⟨R', hinv', hkept⟩ := h.processStep hup hbody hinv hstep
      exact .of_step hstep (ih x hinv' hkept (by simp) (by simp))
  | fork t k => exact isEmptyElim t
  | join k ih =>
      have hstep : ProcessStep (exec i) body m.state (m.process i) m.state ⟨k, fun _ => none⟩ := by
        rw [show m.process i = ⟨.join k, fun _ => none⟩ by rw [← hp, ← htasks]]
        exact .join (by simp)
      obtain ⟨R', hinv', hkept⟩ := h.processStep hup hbody hinv hstep
      exact .of_step hstep (ih hinv' hkept (by simp) (by simp))
  | spin =>
      have hmeets := h.main i
      rw [hp] at hmeets
      exact hmeets.elim

end Machine

end Foundation
end Archinix
