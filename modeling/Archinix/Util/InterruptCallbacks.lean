import Archinix.Foundation.Recency
import Archinix.Foundation.TransitionSystem

/-!
# Interrupt callbacks

`InterruptCallbacks`, `triggerInterrupt` and `createInterruptCallback` of `signals.cc`.
The callbacks stand in a map by integer tokens, each of which is given out once.  The
thread that raises an interrupt walks this map with the lock released between its looks at
it, and remembers no more than the token behind the last callback it found, while other
threads create and destroy registrations.

`inv_of_reachable`: what holds of the map, the tokens and that position at all times.
-/

namespace Archinix
namespace Util
namespace InterruptCallbacks

open Foundation

/-- `InterruptCallbacks::Token`, an `int64_t` that is never negative. -/
abbrev Token := Nat

def tokenLimit : Nat := 2 ^ 63

variable {κ : Type}

/-- `callbacks.lower_bound(i)`. -/
def lowerBound (callbacks : List (Token × κ)) (i : Token) : Option (Token × κ) :=
  callbacks.find? (i ≤ ·.1)

/-- `callbacks.emplace(token, callback)`: a key that is there keeps its value. -/
def emplace (token : Token) (callback : κ) : List (Token × κ) → List (Token × κ)
  | [] => [(token, callback)]
  | e :: rest =>
      if e.1 < token then e :: emplace token callback rest
      else if token < e.1 then (token, callback) :: e :: rest
      else e :: rest

/-- Where the signal handler thread is. -/
inductive HandlerPc (κ : Type) where
  /-- Waiting for a signal. -/
  | idle
  /-- At the head of the loop of `triggerInterrupt`, with its `i`. -/
  | loop (i : Token)
  /-- The lock is released again; this callback has been copied. -/
  | found (token : Token) (callback : κ) (i : Token)
  /-- In the callback. -/
  | calling (i : Token)

namespace HandlerPc

/-- The variable `i`, of a pass that has begun. -/
def position : HandlerPc κ → Token
  | idle => 0
  | loop i => i
  | found _ _ i => i
  | calling i => i

/-- The callback that is copied and not yet called. -/
def pending : HandlerPc κ → List (Token × κ)
  | found token callback _ => [(token, callback)]
  | _ => []

end HandlerPc

structure State (κ : Type) where
  isInterrupted : Bool
  nextToken : Token
  /-- In the order of the tokens. -/
  callbacks : List (Token × κ)
  /-- The `InterruptCallbackImpl` objects that exist, with their tokens. -/
  impls : List (Nat × Token)
  handler : HandlerPc κ

/-- What becomes of a call of `createInterruptCallback`. -/
inductive Outcome where
  | returned (object : Nat)
  /-- `emplace` throws: the token is used up. -/
  | emplaceThrew
  /-- `make_unique` throws: the callback is registered and nobody owns it. -/
  | makeUniqueThrew

inductive Event (κ : Type) where
  /-- `triggerInterrupt` is entered. -/
  | trigger
  /-- One look at the map, and what `lower_bound` gives; at its end the loop is left. -/
  | lookUp (found : Option (Token × κ))
  /-- The call of the callback. -/
  | invoke (token : Token) (callback : κ)
  /-- The callback comes back, or what it throws has been ignored. -/
  | comeBack (threw : Bool)
  | create (callback : κ) (outcome : Outcome)
  /-- The destructor of an `InterruptCallbackImpl`. -/
  | destroy (object : Nat)

/-- `createInterruptCallback`, under the lock from its first line to its last. -/
def createInterruptCallback (s : State κ) (callback : κ) : Outcome → State κ
  | .emplaceThrew => { s with nextToken := s.nextToken + 1 }
  | .makeUniqueThrew => { s with
      nextToken := s.nextToken + 1
      callbacks := emplace s.nextToken callback s.callbacks }
  | .returned object => { s with
      nextToken := s.nextToken + 1
      callbacks := emplace s.nextToken callback s.callbacks
      impls := (object, s.nextToken) :: s.impls }

/-- `~InterruptCallbackImpl`, with the token of the object. -/
def destroyInterruptCallback (s : State κ) (object : Nat) (token : Token) : State κ := { s with
  callbacks := s.callbacks.filter (·.1 ≠ token)
  impls := s.impls.filter (·.1 ≠ object) }

/-- The handler after a look at the map. -/
def afterLookUp : Option (Token × κ) → HandlerPc κ
  | none => .idle
  | some (token, callback) => .found token callback (token + 1)

/-- One step.  A new object is none of those that exist, and the increment of `nextToken`
does not overflow, which is undefined. -/
def Step (s : State κ) : Event κ → State κ → Prop
  | .trigger, t => s.handler = .idle ∧ t = { s with isInterrupted := true, handler := .loop 0 }
  | .lookUp found, t => ∃ i, s.handler = .loop i ∧ lowerBound s.callbacks i = found ∧
      t = { s with handler := afterLookUp found }
  | .invoke token callback, t => ∃ i, s.handler = .found token callback i ∧
      t = { s with handler := .calling i }
  | .comeBack _, t => ∃ i, s.handler = .calling i ∧ t = { s with handler := .loop i }
  | .create callback outcome, t => s.nextToken + 1 < tokenLimit ∧
      (∀ object, outcome = .returned object → object ∉ s.impls.map Prod.fst) ∧
      t = createInterruptCallback s callback outcome
  | .destroy object, t => ∃ token, (object, token) ∈ s.impls ∧
      t = destroyInterruptCallback s object token

/-- Before the first registration. -/
def initial (κ : Type) : State κ where
  isInterrupted := false
  nextToken := 0
  callbacks := []
  impls := []
  handler := .idle

def system (κ : Type) : TransitionSystem (State κ) (Event κ) where
  init s := s = initial κ
  step := Step

/-- The map is ordered and its tokens have been given out; so have those of the objects,
each of which has its own and is registered. -/
structure Inv (s : State κ) : Prop where
  sorted : (s.callbacks.map Prod.fst).Pairwise (· < ·)
  below : ∀ e ∈ s.callbacks, e.1 < s.nextToken
  objects : (s.impls.map Prod.fst).Nodup
  tokens : (s.impls.map Prod.snd).Nodup
  registered : ∀ p ∈ s.impls, ∃ callback, (p.2, callback) ∈ s.callbacks
  position : s.handler.position ≤ s.nextToken

section Map

variable {callbacks : List (Token × κ)} {token i : Token} {callback : κ} {e : Token × κ}

/-- A token above all others goes to the end. -/
theorem emplace_of_lt (h : ∀ e ∈ callbacks, e.1 < token) :
    emplace token callback callbacks = callbacks ++ [(token, callback)] := by
  induction callbacks with
  | nil => rfl
  | cons e rest ih =>
      rw [emplace, if_pos (h e List.mem_cons_self),
        ih fun d hd => h d (List.mem_cons_of_mem _ hd)]
      rfl

theorem lowerBound_eq_none : lowerBound callbacks i = none ↔ ∀ e ∈ callbacks, e.1 < i := by
  rw [lowerBound, List.find?_eq_none]
  simp only [decide_eq_true_eq, Nat.not_le]

/-- What `lower_bound` finds is the first entry from the position on. -/
theorem lowerBound_eq_some (hsorted : (callbacks.map Prod.fst).Pairwise (· < ·))
    (h : lowerBound callbacks i = some e) :
    e ∈ callbacks ∧ i ≤ e.1 ∧ ∀ d ∈ callbacks, d.1 < e.1 + 1 → d.1 < i ∨ d = e := by
  rw [lowerBound, List.find?_eq_some_iff_append] at h
  obtain ⟨hle, before, after, rfl, hbefore⟩ := h
  refine ⟨by simp, by simpa using hle, fun d hd hlt => ?_⟩
  rw [List.map_append, List.map_cons, List.pairwise_append, List.pairwise_cons] at hsorted
  rcases List.mem_append.1 hd with hd | hd
  · left
    simpa using hbefore d hd
  · rcases List.mem_cons.1 hd with rfl | hd
    · exact .inr rfl
    · -- what follows the entry has a greater token
      have hgt : e.1 < d.1 := hsorted.2.1.1 d.1 (List.mem_map_of_mem hd)
      exact absurd hlt (Nat.not_lt.2 hgt)

end Map

section Steps

variable {s t : State κ} {l : Event κ} {e : Token × κ}

theorem inv_initial (κ : Type) : Inv (initial κ) where
  sorted := .nil
  below := fun _ he => by cases he
  objects := .nil
  tokens := .nil
  registered := fun _ hp => by cases hp
  position := Nat.le_refl _

/-- A token that is given out is new to the map, where it goes behind all others. -/
theorem Inv.emplace (h : Inv s) (callback : κ) :
    emplace s.nextToken callback s.callbacks = s.callbacks ++ [(s.nextToken, callback)] :=
  emplace_of_lt h.below

theorem pairwise_concat {tokens : List Token} {token : Token} (hsorted : tokens.Pairwise (· < ·))
    (hlt : ∀ k ∈ tokens, k < token) : (tokens ++ [token]).Pairwise (· < ·) := by
  rw [List.pairwise_append]
  exact ⟨hsorted, List.pairwise_singleton _ _, fun k hk k' hk' => List.mem_singleton.1 hk' ▸ hlt k hk⟩

/-- With a registration that nobody owns. -/
theorem Inv.emplaced (h : Inv s) (callback : κ) : Inv { s with
    nextToken := s.nextToken + 1
    callbacks := InterruptCallbacks.emplace s.nextToken callback s.callbacks } := by
  rw [h.emplace]
  constructor
  · rw [List.map_append]
    exact pairwise_concat h.sorted (by simpa using fun a b he => h.below (a, b) he)
  · intro e he
    rcases List.mem_append.1 he with he | he
    · exact Nat.lt_succ_of_lt (h.below e he)
    · rw [List.mem_singleton.1 he]
      exact Nat.lt_succ_self _
  · exact h.objects
  · exact h.tokens
  · intro p hp
    obtain ⟨c, hc⟩ := h.registered p hp
    exact ⟨c, List.mem_append_left _ hc⟩
  · exact h.position.trans (Nat.le_succ _)

theorem Inv.create (h : Inv s) {callback : κ} {outcome : Outcome}
    (hnew : ∀ object, outcome = .returned object → object ∉ s.impls.map Prod.fst) :
    Inv (createInterruptCallback s callback outcome) := by
  cases outcome with
  | emplaceThrew =>
      exact ⟨h.sorted, fun e he => Nat.lt_succ_of_lt (h.below e he), h.objects, h.tokens, h.registered,
        h.position.trans (Nat.le_succ _)⟩
  | makeUniqueThrew => exact h.emplaced callback
  | returned object =>
      have hemplaced := h.emplaced callback
      refine ⟨hemplaced.sorted, hemplaced.below, ?_, ?_, fun p hp => ?_, hemplaced.position⟩
      · exact List.nodup_cons.2 ⟨hnew object rfl, h.objects⟩
      · refine List.nodup_cons.2 ⟨fun hmem => ?_, h.tokens⟩
        obtain ⟨p, hp, heq⟩ := List.mem_map.1 hmem
        obtain ⟨c, hc⟩ := h.registered p hp
        exact Nat.ne_of_lt (h.below _ hc) heq
      · rcases List.mem_cons.1 hp with rfl | hp
        · refine ⟨callback, ?_⟩
          show (s.nextToken, callback) ∈ InterruptCallbacks.emplace s.nextToken callback s.callbacks
          rw [h.emplace]
          exact List.mem_append_right _ List.mem_cons_self
        · exact hemplaced.registered p hp

/-- The objects other than the one destroyed have other tokens, so their registrations
stay. -/
theorem Inv.destroy (h : Inv s) {object : Nat} {token : Token} (hmem : (object, token) ∈ s.impls) :
    Inv (destroyInterruptCallback s object token) := by
  have hsub : (s.callbacks.filter (·.1 ≠ token)).Sublist s.callbacks := List.filter_sublist
  have hsubImpls : (s.impls.filter (·.1 ≠ object)).Sublist s.impls := List.filter_sublist
  constructor
  · exact h.sorted.sublist (hsub.map _)
  · exact fun e he => h.below e (hsub.subset he)
  · exact h.objects.sublist (hsubImpls.map _)
  · exact h.tokens.sublist (hsubImpls.map _)
  · intro p hp
    obtain ⟨hp, hobject⟩ := List.mem_filter.1 hp
    obtain ⟨c, hc⟩ := h.registered p hp
    refine ⟨c, List.mem_filter.2 ⟨hc, decide_eq_true fun heq => ?_⟩⟩
    have hsame := List.inj_on_of_nodup_map h.tokens hp hmem heq
    simp [hsame] at hobject
  · exact h.position

theorem Inv.step (h : Inv s) (hstep : Step s l t) : Inv t := by
  have hposition := h.position
  cases l with
  | trigger =>
      obtain ⟨-, rfl⟩ := hstep
      exact ⟨h.sorted, h.below, h.objects, h.tokens, h.registered, Nat.zero_le _⟩
  | lookUp found =>
      obtain ⟨i, -, hfound, rfl⟩ := hstep
      refine ⟨h.sorted, h.below, h.objects, h.tokens, h.registered, ?_⟩
      cases found with
      | none => exact Nat.zero_le _
      | some e => exact h.below e (lowerBound_eq_some h.sorted hfound).1
  | invoke token callback =>
      obtain ⟨i, hpc, rfl⟩ := hstep
      rw [hpc] at hposition
      exact ⟨h.sorted, h.below, h.objects, h.tokens, h.registered, hposition⟩
  | comeBack threw =>
      obtain ⟨i, hpc, rfl⟩ := hstep
      rw [hpc] at hposition
      exact ⟨h.sorted, h.below, h.objects, h.tokens, h.registered, hposition⟩
  | create callback outcome =>
      obtain ⟨-, hnew, rfl⟩ := hstep
      exact h.create hnew
  | destroy object =>
      obtain ⟨token, hmem, rfl⟩ := hstep
      exact h.destroy hmem

theorem inv_of_reachable (h : (system κ).Reachable s) : Inv s :=
  h.invariant (fun _ hs => hs ▸ inv_initial κ) fun _ _ _ hs hstep => hs.step hstep

end Steps

end InterruptCallbacks
end Util
end Archinix
