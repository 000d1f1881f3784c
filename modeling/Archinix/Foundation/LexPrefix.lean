import Mathlib.Tactic

/-!
# Prefixes in lexicographic order

The lists that begin with a given one are a contiguous range of the lexicographic order,
and the first of that range is the list itself: in a list sorted from there on they come
first.
-/

namespace Archinix
namespace Foundation

variable {α : Type*} [LT α] [Std.Irrefl (· < · : α → α → Prop)] [Std.Asymm (· < · : α → α → Prop)]
  [Std.Trichotomous (· < · : α → α → Prop)]

theorem isPrefix_of_le_of_le {p a b : List α} (hpa : p ≤ a) (hab : a ≤ b) (hpb : p <+: b) :
    p <+: a := by
  induction p generalizing a b with
  | nil => exact List.nil_prefix
  | cons x p ih =>
      obtain ⟨b, rfl, hrest⟩ : ∃ b', b = x :: b' ∧ p <+: b' := by
        obtain ⟨rest, rfl⟩ := hpb
        exact ⟨p ++ rest, rfl, List.prefix_append p rest⟩
      rcases a with - | ⟨y, a⟩
      · exact absurd hpa (by simp)
      · rw [List.cons_le_cons_iff] at hpa hab
        have hxy : x = y := by
          rcases hpa with hlt | ⟨heq, -⟩
          · rcases hab with hlt' | ⟨heq, -⟩
            · exact absurd hlt' (Std.Asymm.asymm _ _ hlt)
            · exact heq.symm
          · exact heq
        subst hxy
        have hirrefl : ¬ x < x := Std.Irrefl.irrefl x
        have htails : p ≤ a ∧ a ≤ b := by
          constructor
          · simpa [hirrefl] using hpa
          · simpa [hirrefl] using hab
        exact List.cons_prefix_cons.mpr ⟨rfl, ih htails.1 htails.2 hrest⟩

theorem takeWhile_eq_filter_of_sorted [DecidableEq α] {p : List α} {l : List (List α)} (hp : ∀ a ∈ l, p ≤ a)
    (hsorted : l.Pairwise (· ≤ ·)) :
    l.takeWhile (p <+: ·) = l.filter (p <+: ·) := by
  induction l with
  | nil => rfl
  | cons a l ih =>
      obtain ⟨hle, hsorted⟩ := List.pairwise_cons.mp hsorted
      by_cases ha : p <+: a
      · rw [List.takeWhile_cons_of_pos (by simpa using ha), List.filter_cons_of_pos (by simpa using ha),
          ih (fun b hb => hp b (List.mem_cons_of_mem _ hb)) hsorted]
      · -- past the range there is nothing more
        have hnone : ∀ b ∈ l, ¬ p <+: b := fun b hb hpb =>
          ha (isPrefix_of_le_of_le (hp a List.mem_cons_self) (hle b hb) hpb)
        rw [List.takeWhile_cons_of_neg (by simpa using ha), List.filter_cons_of_neg (by simpa using ha),
          eq_comm, List.filter_eq_nil_iff]
        simpa using hnone

end Foundation
end Archinix
