import Mathlib.Tactic

/-!
# Computations that emit before they fail

A streaming writer or parser calls its sink as it goes, so what it handed over
before an exception is part of its result.  `Emit ω ε α` keeps both: the items
emitted, in order, and then a value or the exception that cut the run short.
-/

namespace Archinix
namespace Foundation

/-- A sequence of two fallible steps ends normally when both do. -/
theorem except_bind_eq_ok {ε α β : Type} {x : Except ε α} {f : α → Except ε β} {b : β}
    (h : (x >>= f) = .ok b) : ∃ a, x = .ok a ∧ f a = .ok b := by
  cases x with
  | error err => cases h
  | ok a => exact ⟨a, rfl, h⟩

/-- Items emitted in order, followed by a result or by the exception that
ended the run. -/
structure Emit (ω ε α : Type) where
  emitted : List ω
  result : Except ε α

namespace Emit

variable {ω ε α β : Type}

/-- Prepend items that were emitted earlier. -/
def prepend (items : List ω) (e : Emit ω ε α) : Emit ω ε α :=
  ⟨items ++ e.emitted, e.result⟩

/-- Sequencing: a failed run emits nothing further. -/
def bind (e : Emit ω ε α) (f : α → Emit ω ε β) : Emit ω ε β :=
  match e.result with
  | .ok a => (f a).prepend e.emitted
  | .error err => ⟨e.emitted, .error err⟩

instance : Monad (Emit ω ε) where
  pure a := ⟨[], .ok a⟩
  bind := bind

instance : MonadExceptOf ε (Emit ω ε) where
  throw err := ⟨[], .error err⟩
  tryCatch e handler :=
    match e.result with
    | .ok _ => e
    | .error err => (handler err).prepend e.emitted

/-- Hand one item to the sink. -/
def tell (item : ω) : Emit ω ε Unit := ⟨[item], .ok ()⟩

/-- Hand a whole list of items to the sink. -/
def tellAll (items : List ω) : Emit ω ε Unit := ⟨items, .ok ()⟩

@[ext] theorem ext {e₁ e₂ : Emit ω ε α} (hemitted : e₁.emitted = e₂.emitted)
    (hresult : e₁.result = e₂.result) : e₁ = e₂ := by
  cases e₁
  cases e₂
  simp_all

@[simp] theorem pure_def (a : α) : (pure a : Emit ω ε α) = ⟨[], .ok a⟩ := rfl

@[simp] theorem throw_def (err : ε) : (throw err : Emit ω ε α) = ⟨[], .error err⟩ := rfl

@[simp] theorem bind_ok (items : List ω) (a : α) (f : α → Emit ω ε β) :
    ((⟨items, .ok a⟩ : Emit ω ε α) >>= f) = (f a).prepend items := rfl

@[simp] theorem bind_error (items : List ω) (err : ε) (f : α → Emit ω ε β) :
    ((⟨items, .error err⟩ : Emit ω ε α) >>= f) = ⟨items, .error err⟩ := rfl

@[simp] theorem prepend_mk (items more : List ω) (r : Except ε α) :
    prepend items ⟨more, r⟩ = ⟨items ++ more, r⟩ := rfl

@[simp] theorem prepend_nil (e : Emit ω ε α) : e.prepend [] = e := rfl

@[simp] theorem prepend_prepend (first second : List ω) (e : Emit ω ε α) :
    (e.prepend second).prepend first = e.prepend (first ++ second) := by
  simp [prepend]

@[simp] theorem tell_bind (item : ω) (f : Unit → Emit ω ε β) :
    (tell item >>= f) = (f ()).prepend [item] := rfl

@[simp] theorem tellAll_bind (items : List ω) (f : Unit → Emit ω ε β) :
    (tellAll items >>= f) = (f ()).prepend items := rfl

theorem bind_prepend (items : List ω) (e : Emit ω ε α) (f : α → Emit ω ε β) :
    (e.prepend items >>= f) = (e >>= f).prepend items := by
  rcases e with ⟨more, err | a⟩ <;> simp [prepend]

instance : LawfulMonad (Emit ω ε) := LawfulMonad.mk' _
  (by rintro α ⟨items, err | a⟩ <;> simp [Functor.map, bind, prepend])
  (by intro α β a f; simp)
  (by
    rintro α β γ ⟨items, err | a⟩ f g
    · simp
    · simp [bind_prepend])

/-- A run that ended normally is the normal run of its first half followed by
the normal run of the second. -/
theorem bind_eq_ok {e : Emit ω ε α} {f : α → Emit ω ε β} {items : List ω} {b : β}
    (h : (e >>= f) = ⟨items, .ok b⟩) :
    ∃ first a second, e = ⟨first, .ok a⟩ ∧ f a = ⟨second, .ok b⟩ ∧ items = first ++ second := by
  rcases e with ⟨first, err | a⟩
  · simp at h
  · refine ⟨first, a, (f a).emitted, rfl, ?_, ?_⟩
    · simp [prepend] at h
      ext1
      · rfl
      · exact h.2
    · simp [prepend] at h
      exact h.1.symm

theorem prepend_eq_ok {e : Emit ω ε α} {first items : List ω} {a : α}
    (h : e.prepend first = ⟨items, .ok a⟩) : ∃ second, e = ⟨second, .ok a⟩ := by
  obtain ⟨second, r⟩ := e
  rw [prepend_mk] at h
  injection h with _ hresult
  exact ⟨second, by rw [hresult]⟩

/-- A loop that ended normally did so in every round. -/
theorem forM_eq_ok {l : List β} {f : β → Emit ω ε PUnit} {items : List ω}
    (h : l.forM f = ⟨items, .ok ⟨⟩⟩) {b : β} (hb : b ∈ l) :
    ∃ items', f b = ⟨items', .ok ⟨⟩⟩ := by
  induction l generalizing items with
  | nil => cases hb
  | cons first rest ih =>
      rw [List.forM_eq_forM, List.forM_cons] at h
      obtain ⟨items₁, _, items₂, hfirst, hrest, -⟩ := bind_eq_ok h
      rcases List.mem_cons.mp hb with rfl | hmem
      · exact ⟨items₁, hfirst⟩
      · exact ih hrest hmem

/-- Runs that emit the same and end normally with the same values; their
exceptions may differ. -/
structure Alike (e₁ e₂ : Emit ω ε α) : Prop where
  emitted : e₁.emitted = e₂.emitted
  result : ∀ a, e₁.result = .ok a ↔ e₂.result = .ok a

namespace Alike

variable {e e₁ e₂ : Emit ω ε α}

theorem refl (e : Emit ω ε α) : Alike e e := ⟨rfl, fun _ => Iff.rfl⟩

theorem failed (items : List ω) (err₁ err₂ : ε) :
    Alike (⟨items, .error err₁⟩ : Emit ω ε α) ⟨items, .error err₂⟩ :=
  ⟨rfl, by simp⟩

theorem bind {f₁ f₂ : α → Emit ω ε β} (h : Alike e₁ e₂) (hf : ∀ a, Alike (f₁ a) (f₂ a)) :
    Alike (e₁ >>= f₁) (e₂ >>= f₂) := by
  obtain ⟨hemitted, hresult⟩ := h
  rcases e₁ with ⟨items, err₁ | a⟩
  · rcases e₂ with ⟨items₂, err₂ | b⟩
    · obtain rfl : items = items₂ := hemitted
      exact failed items err₁ err₂
    · have hok := (hresult b).mpr rfl
      cases hok
  · obtain ⟨items₂, result⟩ := e₂
    obtain rfl : result = .ok a := (hresult a).mp rfl
    obtain rfl : items = items₂ := hemitted
    rw [bind_ok, bind_ok]
    exact ⟨congrArg (items ++ ·) (hf a).emitted, (hf a).result⟩

theorem prepend (items : List ω) (h : Alike e₁ e₂) : Alike (e₁.prepend items) (e₂.prepend items) :=
  ⟨congrArg (items ++ ·) h.emitted, h.result⟩

theorem forM {l : List β} {f₁ f₂ : β → Emit ω ε PUnit} (h : ∀ b ∈ l, Alike (f₁ b) (f₂ b)) :
    Alike (l.forM f₁) (l.forM f₂) := by
  induction l with
  | nil => exact refl _
  | cons b rest ih =>
      simp only [List.forM_eq_forM, List.forM_cons] at ih ⊢
      exact (h b (by simp)).bind fun _ => ih fun b hb => h b (List.mem_cons_of_mem _ hb)

end Alike

end Emit

end Foundation
end Archinix
