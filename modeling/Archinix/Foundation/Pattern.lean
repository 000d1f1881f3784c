import Mathlib.Computability.Language

/-!
# Patterns

Sequences of single characters and character classes, each with a quantifier after it:
the part of extended regular expressions without groups and alternatives.  `matchPrefix`
decides whether a text begins with a word of the pattern, and `matchPrefix_iff` says that
it does.
-/

namespace Archinix
namespace Foundation
namespace Pattern

open scoped Computability

inductive Quantifier where
  | once
  | optional
  | many
  | several
  deriving DecidableEq

/-- A class of characters and how often it stands there. -/
structure Item (α : Type) where
  accepts : α → Bool
  times : Quantifier

section Matching

variable {α : Type}

/-- Any number of characters of a class, before what `next` takes. -/
def matchMany (accepts : α → Bool) (next : List α → Bool) : List α → Bool
  | [] => next []
  | c :: s => next (c :: s) || (accepts c && matchMany accepts next s)

/-- One character of a class. -/
def matchOnce (accepts : α → Bool) (next : List α → Bool) : List α → Bool
  | [] => false
  | c :: s => accepts c && next s

def Item.match (item : Item α) (next : List α → Bool) (s : List α) : Bool :=
  match item.times with
  | .once => matchOnce item.accepts next s
  | .optional => next s || matchOnce item.accepts next s
  | .many => matchMany item.accepts next s
  | .several => matchOnce item.accepts (matchMany item.accepts next) s

/-- The text begins with a word of the pattern. -/
def matchPrefix (items : List (Item α)) : List α → Bool :=
  items.foldr Item.match fun _ => true

/-- The words of one character. -/
def letters (accepts : α → Bool) : Language α := fun w => ∃ c, accepts c = true ∧ w = [c]

/-- The words of an item, and of a sequence of them. -/
def Item.language (item : Item α) : Language α :=
  match item.times with
  | .once => letters item.accepts
  | .optional => 1 + letters item.accepts
  | .many => (letters item.accepts)∗
  | .several => letters item.accepts * (letters item.accepts)∗

def language (items : List (Item α)) : Language α := (items.map Item.language).prod

variable {accepts : α → Bool} {next : List α → Bool} {s w : List α} {item : Item α}
  {items : List (Item α)}

theorem mem_letters : w ∈ letters accepts ↔ ∃ c, accepts c = true ∧ w = [c] := Iff.rfl

theorem mem_letters_kstar : w ∈ (letters accepts)∗ ↔ ∀ c ∈ w, accepts c = true := by
  rw [Language.mem_kstar]
  constructor
  · rintro ⟨ws, rfl, hws⟩ c hc
    obtain ⟨w, hw, hcw⟩ := List.mem_flatten.mp hc
    obtain ⟨c', hc', rfl⟩ := hws w hw
    rwa [List.mem_singleton.mp hcw]
  · intro h
    refine ⟨w.map fun c => [c], ?_, fun v hv => ?_⟩
    · rw [← List.flatMap_def]
      exact (List.flatMap_singleton' w).symm
    · obtain ⟨c, hc, rfl⟩ := List.mem_map.mp hv
      exact ⟨c, h c hc, rfl⟩

theorem matchOnce_iff : matchOnce accepts next s = true ↔
    ∃ a b, s = a ++ b ∧ a ∈ letters accepts ∧ next b = true := by
  cases s with
  | nil =>
      refine iff_of_false Bool.false_ne_true ?_
      rintro ⟨a, b, hs, ⟨c, -, rfl⟩, -⟩
      cases hs
  | cons c s =>
      rw [matchOnce, Bool.and_eq_true]
      constructor
      · exact fun ⟨hc, hs⟩ => ⟨[c], s, rfl, ⟨c, hc, rfl⟩, hs⟩
      · rintro ⟨a, b, hs, ⟨c', hc', rfl⟩, hb⟩
        obtain ⟨rfl, rfl⟩ := List.cons.inj hs
        exact ⟨hc', hb⟩

theorem matchMany_iff : matchMany accepts next s = true ↔
    ∃ a b, s = a ++ b ∧ a ∈ (letters accepts)∗ ∧ next b = true := by
  simp only [mem_letters_kstar]
  induction s with
  | nil =>
      constructor
      · exact fun h => ⟨[], [], rfl, by simp, h⟩
      · rintro ⟨a, b, hs, -, hb⟩
        obtain ⟨rfl, rfl⟩ := List.append_eq_nil_iff.mp hs.symm
        exact hb
  | cons c s ih =>
      rw [matchMany, Bool.or_eq_true, Bool.and_eq_true, ih]
      constructor
      · rintro (hnow | ⟨hc, a, b, rfl, ha, hb⟩)
        · exact ⟨[], c :: s, rfl, by simp, hnow⟩
        · exact ⟨c :: a, b, rfl, by simpa [hc] using ha, hb⟩
      · rintro ⟨a, b, hs, ha, hb⟩
        cases a with
        | nil => exact Or.inl (by rw [hs]; exact hb)
        | cons c' a =>
            obtain ⟨rfl, rfl⟩ := List.cons.inj hs
            exact Or.inr ⟨ha c (by simp), a, b, rfl, fun c' hc' => ha c' (by simp [hc']), hb⟩

theorem Item.match_iff : item.match next s = true ↔
    ∃ a b, s = a ++ b ∧ a ∈ item.language ∧ next b = true := by
  obtain ⟨accepts, times⟩ := item
  cases times with
  | once => exact matchOnce_iff
  | many => exact matchMany_iff
  | optional =>
      simp only [Item.match, Item.language, Bool.or_eq_true, matchOnce_iff, Language.add_def]
      constructor
      · rintro (h | ⟨a, b, hs, ha, hb⟩)
        · exact ⟨[], s, rfl, Or.inl rfl, h⟩
        · exact ⟨a, b, hs, Or.inr ha, hb⟩
      · rintro ⟨a, b, hs, ha | ha, hb⟩
        · obtain rfl : a = [] := ha
          exact Or.inl (by rw [hs]; exact hb)
        · exact Or.inr ⟨a, b, hs, ha, hb⟩
  | several =>
      simp only [Item.match, Item.language, matchOnce_iff, matchMany_iff, Language.mem_mul]
      constructor
      · rintro ⟨a, b, rfl, ha, a', b', rfl, ha', hb'⟩
        exact ⟨a ++ a', b', by simp, ⟨a, ha, a', ha', rfl⟩, hb'⟩
      · rintro ⟨a, b, rfl, ⟨a₁, ha₁, a₂, ha₂, rfl⟩, hb⟩
        exact ⟨a₁, a₂ ++ b, by simp, ha₁, a₂, b, rfl, ha₂, hb⟩

theorem language_nil : language ([] : List (Item α)) = 1 := rfl

theorem language_cons : language (item :: items) = item.language * language items := by
  rw [language, List.map_cons, List.prod_cons]
  rfl

theorem language_append (items items' : List (Item α)) :
    language (items ++ items') = language items * language items' := by
  rw [language, List.map_append, List.prod_append]
  rfl

/-- The text begins with a word of the pattern's language. -/
theorem matchPrefix_iff : matchPrefix items s = true ↔ ∃ a b, s = a ++ b ∧ a ∈ language items := by
  induction items generalizing s with
  | nil => exact iff_of_true rfl ⟨[], s, rfl, rfl⟩
  | cons item items ih =>
      rw [matchPrefix, List.foldr_cons, Item.match_iff, language_cons]
      constructor
      · rintro ⟨a, b, rfl, ha, hb⟩
        obtain ⟨a', b', rfl, ha'⟩ := ih.mp hb
        exact ⟨a ++ a', b', by simp, Language.append_mem_mul ha ha'⟩
      · rintro ⟨w, b, rfl, hw⟩
        obtain ⟨a, ha, a', ha', rfl⟩ := Language.mem_mul.mp hw
        exact ⟨a, a' ++ b, by simp, ha, ih.mpr ⟨a', b, rfl, ha'⟩⟩

end Matching

/-! ## Extended regular expressions -/

/-- `*`, `+` and `?`. -/
def quantifierOf (c : UInt8) : Option Quantifier :=
  if c = 42 then some .many else if c = 43 then some .several else if c = 63 then some .optional
  else none

/-- A quantifier after a quantifier. -/
def Quantifier.andThen : Quantifier → Quantifier → Quantifier
  | .once, q => q
  | .optional, .optional => .optional
  | .several, .several => .several
  | _, _ => .many

/-- A character that stands for itself, or for any if it is a dot. -/
def literal (c : UInt8) : Item UInt8 := ⟨fun c' => c = 46 || c = c', .once⟩

/-- One character of the expression, the items before it in reverse.  A quantifier with
nothing before it stands for itself. -/
def ereStep (items : List (Item UInt8)) (c : UInt8) : List (Item UInt8) :=
  match quantifierOf c with
  | none => literal c :: items
  | some q =>
      match items with
      | [] => [literal c]
      | item :: items => { item with times := item.times.andThen q } :: items

/-- The items of an expression without groups, alternatives, brackets and escapes. -/
def ereItems (text : List UInt8) : List (Item UInt8) := (text.foldl ereStep []).reverse

variable {text text' : List UInt8} {c : UInt8}

theorem ereStep_literal (h : quantifierOf c = none) (items : List (Item UInt8)) :
    ereStep items c = literal c :: items := by
  rw [ereStep, h]

/-- A step changes the last item at most. -/
theorem ereStep_append {items : List (Item UInt8)} (hne : items ≠ []) (before : List (Item UInt8)) :
    ereStep (items ++ before) c = ereStep items c ++ before ∧ ereStep items c ≠ [] := by
  obtain ⟨item, items, rfl⟩ := List.exists_cons_of_ne_nil hne
  unfold ereStep
  cases quantifierOf c with
  | none => exact ⟨rfl, List.cons_ne_nil _ _⟩
  | some q => exact ⟨rfl, List.cons_ne_nil _ _⟩

theorem foldl_ereStep_append {items : List (Item UInt8)} (hne : items ≠ []) (before : List (Item UInt8)) :
    text.foldl ereStep (items ++ before) = text.foldl ereStep items ++ before := by
  induction text generalizing items with
  | nil => rfl
  | cons c text ih =>
      obtain ⟨hstep, hne'⟩ := ereStep_append (c := c) hne before
      rw [List.foldl_cons, List.foldl_cons, hstep, ih hne']

/-- Two expressions one after the other, where the second does not begin with a quantifier. -/
theorem ereItems_append (hc : quantifierOf c = none) :
    ereItems (text ++ c :: text') = ereItems text ++ ereItems (c :: text') := by
  have happend : text'.foldl ereStep ([literal c] ++ text.foldl ereStep []) =
      text'.foldl ereStep [literal c] ++ text.foldl ereStep [] :=
    foldl_ereStep_append (List.cons_ne_nil _ _) _
  rw [ereItems, ereItems, ereItems, List.foldl_append, List.foldl_cons, List.foldl_cons,
    ereStep_literal hc, ereStep_literal hc, ← List.singleton_append, happend, List.reverse_append]

theorem ereItems_concat (hc : quantifierOf c = none) :
    ereItems (text ++ [c]) = ereItems text ++ [literal c] := by
  rw [ereItems_append hc, ereItems, ereItems, List.foldl_cons, ereStep_literal hc]
  rfl

theorem mem_language_literal {w : List UInt8} :
    w ∈ language [literal c] ↔ ∃ c', (c = 46 ∨ c = c') ∧ w = [c'] := by
  rw [language_cons, language_nil, mul_one]
  simp [literal, Item.language, mem_letters]

/-- An expression without quantifiers has its own text among its words. -/
theorem mem_language_ereItems (h : ∀ c ∈ text, quantifierOf c = none) :
    text ∈ language (ereItems text) := by
  induction text using List.reverseRecOn with
  | nil => rfl
  | append_singleton text c ih =>
      rw [ereItems_concat (h c (by simp)), language_append]
      exact Language.append_mem_mul (ih fun c' hc' => h c' (by simp [hc']))
        (mem_language_literal.mpr ⟨c, Or.inr rfl, rfl⟩)

/-- An expression without quantifiers and dots has no other word. -/
theorem language_ereItems (h : ∀ c ∈ text, quantifierOf c = none ∧ c ≠ 46) {w : List UInt8} :
    w ∈ language (ereItems text) ↔ w = text := by
  refine ⟨fun hw => ?_, ?_⟩
  swap
  · rintro rfl
    exact mem_language_ereItems fun c hc => (h c hc).1
  induction text using List.reverseRecOn generalizing w with
  | nil => exact hw
  | append_singleton text c ih =>
      obtain ⟨hc, hdot⟩ := h c (by simp)
      rw [ereItems_concat hc, language_append] at hw
      obtain ⟨a, ha, b, hb, rfl⟩ := Language.mem_mul.mp hw
      obtain ⟨c', hc', rfl⟩ := mem_language_literal.mp hb
      rw [ih (fun c' hc' => h c' (by simp [hc'])) ha, hc'.resolve_left hdot]

end Pattern
end Foundation
end Archinix
