import Mathlib.Tactic

/-!
# Text tables

Lines of fields, as shell tools write and read them: every line ends with one
character, the fields of a line are separated by another, and numbers are written
without leading zeros.  What was written is read back as long as no field contains
either character.
-/

namespace Archinix
namespace Foundation
namespace TextTable

section Lines

variable {α : Type} [BEq α] [LawfulBEq α] {nl tab : α}

variable (nl) in
/-- Every line with the character that ends it. -/
def unlines (ls : List (List α)) : List α := ls.flatMap fun l => l ++ [nl]

variable (nl) in
/-- The lines of a text; nothing follows the last end of line of most texts. -/
def lines (text : List α) : List (List α) :=
  let ls := text.splitOn nl
  if ls.getLast?.all (·.isEmpty) then ls.dropLast else ls

variable (tab) in
/-- The fields of a line. -/
def fields (line : List α) : List (List α) := line.splitOn tab

theorem splitOn_unlines (ls : List (List α)) :
    (unlines nl ls).splitOn nl = ls.flatMap (·.splitOn nl) ++ [[]] := by
  induction ls with
  | nil => simp [unlines, List.splitOn_eq_singleton]
  | cons l ls ih =>
      rw [unlines, List.flatMap_cons, List.append_assoc, List.singleton_append,
        List.splitOn_append_cons_self, List.flatMap_cons, List.append_assoc]
      exact congrArg (l.splitOn nl ++ ·) ih

/-- A line that contains the character is read as several. -/
theorem lines_unlines_flatMap (ls : List (List α)) :
    lines nl (unlines nl ls) = ls.flatMap (·.splitOn nl) := by
  simp [lines, splitOn_unlines]

theorem lines_unlines {ls : List (List α)} (h : ∀ l ∈ ls, nl ∉ l) : lines nl (unlines nl ls) = ls := by
  rw [lines_unlines_flatMap]
  induction ls with
  | nil => rfl
  | cons l ls ih =>
      rw [List.flatMap_cons, List.splitOn_eq_singleton (h l (by simp)),
        ih fun l' hl' => h l' (List.mem_cons_of_mem _ hl'), List.singleton_append]

/-- A line without the character is read back, whatever the others are. -/
theorem mem_lines_unlines {ls : List (List α)} {l : List α} (hl : l ∈ ls) (hnl : nl ∉ l) :
    l ∈ lines nl (unlines nl ls) := by
  rw [lines_unlines_flatMap, List.mem_flatMap]
  exact ⟨l, hl, by simp [List.splitOn_eq_singleton hnl]⟩

theorem fields_intercalate {fs : List (List α)} (hne : fs ≠ []) (h : ∀ f ∈ fs, tab ∉ f) :
    fields tab ([tab].intercalate fs) = fs :=
  List.splitOn_intercalate tab h hne

omit [BEq α] [LawfulBEq α] in
theorem not_mem_intercalate {c : α} {fs : List (List α)} (hc : c ≠ tab) (h : ∀ f ∈ fs, c ∉ f) :
    c ∉ [tab].intercalate fs := by
  induction fs with
  | nil => simp
  | cons f fs ih =>
      have hf := h f (by simp)
      have hfs := ih fun f' hf' => h f' (List.mem_cons_of_mem _ hf')
      cases fs with
      | nil => simpa using hf
      | cons f' fs =>
          rw [List.intercalate_cons_cons]
          simp [hf, hc, hfs]

end Lines

/-! ## Numbers -/

/-- The digit characters of a number, most significant first. -/
def numeral (base n : Nat) : List UInt8 :=
  if n = 0 then [48] else (Nat.digits base n).reverse.map fun d => UInt8.ofNat (48 + d)

/-- The number written by these digits. -/
def readNumeral (base : Nat) (s : List UInt8) : Nat :=
  s.foldl (fun n c => n * base + (c.toNat - 48)) 0

variable {base : Nat}

theorem numeral_digit (h₁ : 1 < base) (h₂ : base ≤ 10) {n : Nat} {c : UInt8}
    (hc : c ∈ numeral base n) : ∃ d, d < 10 ∧ c = UInt8.ofNat (48 + d) := by
  unfold numeral at hc
  split at hc
  · exact ⟨0, by omega, List.mem_singleton.mp hc⟩
  · obtain ⟨d, hd, rfl⟩ := List.mem_map.mp hc
    have hlt := Nat.digits_lt_base h₁ (List.mem_reverse.mp hd)
    exact ⟨d, by omega, rfl⟩

/-- No separator is a digit. -/
theorem not_mem_numeral (h₁ : 1 < base) (h₂ : base ≤ 10) (n : Nat) {c : UInt8}
    (hc : c.toNat < 48 ∨ 57 < c.toNat) : c ∉ numeral base n := by
  intro hmem
  obtain ⟨d, hd, rfl⟩ := numeral_digit h₁ h₂ hmem
  rw [UInt8.toNat_ofNat', Nat.mod_eq_of_lt (by omega)] at hc
  omega

theorem readNumeral_numeral (h₁ : 1 < base) (h₂ : base ≤ 10) (n : Nat) :
    readNumeral base (numeral base n) = n := by
  unfold numeral
  split
  · rename_i hn
    simp [readNumeral, hn]
  · have hdigits : ∀ ds : List Nat, (∀ d ∈ ds, d < 10) →
        readNumeral base (ds.reverse.map fun d => UInt8.ofNat (48 + d)) = Nat.ofDigits base ds := by
      intro ds hds
      induction ds with
      | nil => rfl
      | cons d ds ih =>
          have hrest := ih fun d' hd' => hds d' (List.mem_cons_of_mem _ hd')
          have hd := hds d (by simp)
          have hval : (UInt8.ofNat (48 + d)).toNat - 48 = d := by
            rw [UInt8.toNat_ofNat', Nat.mod_eq_of_lt (by omega)]
            omega
          rw [readNumeral] at hrest ⊢
          rw [List.reverse_cons, List.map_append, List.foldl_append, hrest, Nat.ofDigits_cons]
          simp only [List.map_cons, List.map_nil, List.foldl_cons, List.foldl_nil, hval]
          ring
    rw [hdigits _ fun d hd => (Nat.digits_lt_base h₁ hd).trans_le h₂, Nat.ofDigits_digits]

theorem numeral_injective (h₁ : 1 < base) (h₂ : base ≤ 10) : Function.Injective (numeral base) :=
  fun a b h => by
    rw [← readNumeral_numeral h₁ h₂ a, h, readNumeral_numeral h₁ h₂]

end TextTable
end Foundation
end Archinix
