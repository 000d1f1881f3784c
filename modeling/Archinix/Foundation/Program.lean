import Archinix.Foundation.TransitionSystem

/-!
# Programs with background tasks

A program asks its surroundings for operations, one at a time, and may start
background tasks and wait for them.  Exceptions are results, so a handler or a
destructor is ordinary sequencing.  Nothing here says what an operation does: an
interface names the operations with the types of their answers, and an
execution relation gives them their meaning.

Any number of processes run such programs over one shared state; their steps,
the steps of their tasks and those of the outside interleave freely.
-/

namespace Archinix
namespace Foundation

/-- What programs may ask for: operations with the types of their answers,
background tasks, and exceptions. -/
structure Interface where
  Op : Type
  Ret : Op → Type
  Task : Type
  Err : Type

/-- A program that ends with an `α` or an exception.  `spin` is a recursion that
has used up the depth it was unrolled to: it never takes another step. -/
inductive Prog (I : Interface) (α : Type) : Type where
  | done (r : Except I.Err α)
  | op (o : I.Op) (k : I.Ret o → Prog I α)
  | fork (t : I.Task) (k : Prog I α)
  | join (k : Prog I α)
  | spin

namespace Prog

variable {I : Interface} {α β γ : Type}

/-- Sequencing: an exception ends the program. -/
def bind : Prog I α → (α → Prog I β) → Prog I β
  | done (.ok a), f => f a
  | done (.error e), _ => done (.error e)
  | op o k, f => op o fun x => bind (k x) f
  | fork t k, f => fork t (bind k f)
  | join k, f => join (bind k f)
  | spin, _ => spin

/-- Run a program and hand over how it ended. -/
def attempt : Prog I α → Prog I (Except I.Err α)
  | done r => done (.ok r)
  | op o k => op o fun x => attempt (k x)
  | fork t k => fork t (attempt k)
  | join k => join (attempt k)
  | spin => spin

instance : Monad (Prog I) where
  pure a := done (.ok a)
  bind := bind

instance : MonadExceptOf I.Err (Prog I) where
  throw e := done (.error e)
  tryCatch p handler := bind (attempt p) fun
    | .ok a => done (.ok a)
    | .error e => handler e

/-- One operation. -/
def perform (o : I.Op) : Prog I (I.Ret o) := op o fun x => done (.ok x)

/-- Run `cleanup` however `p` ends, as a destructor does: its own exceptions are
swallowed. -/
def finally' (p : Prog I α) (cleanup : Prog I Unit) : Prog I α :=
  bind (attempt p) fun r => bind (attempt cleanup) fun _ => done r

@[simp] theorem pure_def (a : α) : (pure a : Prog I α) = done (.ok a) := rfl

@[simp] theorem throw_def (e : I.Err) : (throw e : Prog I α) = done (.error e) := rfl

@[simp] theorem bind_def (p : Prog I α) (f : α → Prog I β) : p >>= f = bind p f := rfl

@[simp] theorem bind_done (p : Prog I α) : bind p (fun a => done (.ok a)) = p := by
  induction p with
  | done r => cases r <;> rfl
  | op o k ih => simp only [bind, ih]
  | fork t k ih => simp only [bind, ih]
  | join k ih => simp only [bind, ih]
  | spin => rfl

theorem bind_assoc (p : Prog I α) (f : α → Prog I β) (g : β → Prog I γ) :
    bind (bind p f) g = bind p fun a => bind (f a) g := by
  induction p with
  | done r => cases r <;> rfl
  | op o k ih => simp only [bind, ih]
  | fork t k ih => simp only [bind, ih]
  | join k ih => simp only [bind, ih]
  | spin => rfl

instance : LawfulMonad (Prog I) := LawfulMonad.mk' _
  (by intro α p; exact bind_done p)
  (by intro α β a f; rfl)
  (by intro α β γ p f g; exact bind_assoc p f g)

/-- The program has ended. -/
def Finished : Prog I α → Prop
  | done _ => True
  | _ => False

end Prog

/-! ## Running programs -/

/-- A process: its main program and the tasks it has started, by number. -/
structure Process (I : Interface) (α : Type) where
  main : Prog I α
  tasks : Nat → Option (Prog I Unit)

namespace Process

variable {I : Interface} {α : Type}

/-- A process about to run a program. -/
def start (p : Prog I α) : Process I α := ⟨p, fun _ => none⟩

/-- The main program and all tasks have ended. -/
def Finished (p : Process I α) : Prop :=
  p.main.Finished ∧ ∀ n t, p.tasks n = some t → t.Finished

end Process

section Semantics

variable {I : Interface} {σ α : Type}

/-- What operations do: the possible answers and states after. -/
abbrev Exec (I : Interface) (σ : Type) := (o : I.Op) → σ → I.Ret o → σ → Prop

/-- One step of a process. -/
inductive ProcessStep (exec : Exec I σ) (body : I.Task → Prog I Unit) :
    σ → Process I α → σ → Process I α → Prop
  | op {s s' : σ} {o : I.Op} {k : I.Ret o → Prog I α} {x : I.Ret o}
      {tasks : Nat → Option (Prog I Unit)} (h : exec o s x s') :
      ProcessStep exec body s ⟨.op o k, tasks⟩ s' ⟨k x, tasks⟩
  | fork {s : σ} {t : I.Task} {k : Prog I α} {tasks : Nat → Option (Prog I Unit)} {n : Nat}
      (hfresh : tasks n = none) :
      ProcessStep exec body s ⟨.fork t k, tasks⟩ s ⟨k, Function.update tasks n (some (body t))⟩
  | join {s : σ} {k : Prog I α} {tasks : Nat → Option (Prog I Unit)}
      (hdone : ∀ n t, tasks n = some t → t.Finished) :
      ProcessStep exec body s ⟨.join k, tasks⟩ s ⟨k, fun _ => none⟩
  | taskOp {s s' : σ} {main : Prog I α} {tasks : Nat → Option (Prog I Unit)} {n : Nat}
      {o : I.Op} {k : I.Ret o → Prog I Unit} {x : I.Ret o} (htask : tasks n = some (.op o k))
      (h : exec o s x s') :
      ProcessStep exec body s ⟨main, tasks⟩ s' ⟨main, Function.update tasks n (some (k x))⟩
  | taskFork {s : σ} {main : Prog I α} {tasks : Nat → Option (Prog I Unit)} {n m : Nat}
      {t : I.Task} {k : Prog I Unit} (htask : tasks n = some (.fork t k))
      (hfresh : tasks m = none) :
      ProcessStep exec body s ⟨main, tasks⟩ s
        ⟨main, Function.update (Function.update tasks n (some k)) m (some (body t))⟩

/-- Who takes a step of a system of processes: one of them or the outside. -/
inductive Actor (ι : Type) where
  | process (i : ι)
  | outside

/-- Processes over one shared state. -/
structure Machine (I : Interface) (σ ι α : Type) where
  state : σ
  process : ι → Process I α

/-- The processes of `ι` running side by side.  Operations may depend on the
process that asks for them. -/
def machine {ι : Type} [DecidableEq ι] (exec : ι → Exec I σ) (body : I.Task → Prog I Unit)
    (outside : σ → σ → Prop) (init : Machine I σ ι α → Prop) :
    TransitionSystem (Machine I σ ι α) (Actor ι) where
  init := init
  step m a m' :=
    match a with
    | .process i => ∃ p, ProcessStep (exec i) body m.state (m.process i) m'.state p ∧
        m'.process = Function.update m.process i p
    | .outside => outside m.state m'.state ∧ m'.process = m.process

end Semantics

end Foundation
end Archinix
