import Mathlib.Data.List.Nodup
import Mathlib.Data.List.Perm.Basic

/-!
# Recency

Keys in the order of their last use, the last used one first.  A use brings its key to
the front, so the first `n` keys after it are determined by the first `n` before it; this
is what lets a bounded cache forget all others.  Also here: what a list without repeated
keys says about the single entry of a key.
-/

namespace Archinix
namespace Foundation

variable {κ α : Type*}

section Touch

variable [DecidableEq κ]

/-- A key is used. -/
def touch (key : κ) (keys : List κ) : List κ := key :: keys.erase key

theorem mem_touch {k key : κ} {keys : List κ} : k ∈ touch key keys ↔ k = key ∨ k ∈ keys := by
  rw [touch, List.mem_cons]
  by_cases hk : k = key
  · simp [hk]
  · simp [hk, List.mem_erase_of_ne hk]

theorem nodup_touch {key : κ} {keys : List κ} (h : keys.Nodup) : (touch key keys).Nodup :=
  List.nodup_cons.2 ⟨h.not_mem_erase, h.erase key⟩

/-- Which `n` keys come first without a given one shows in the first `n + 1`. -/
theorem take_erase_take (key : κ) (keys : List κ) (n : Nat) :
    ((keys.take (n + 1)).erase key).take n = (keys.erase key).take n := by
  induction keys generalizing n with
  | nil => rfl
  | cons k rest ih =>
      by_cases hk : k = key
      · subst hk
        rw [List.take_succ_cons, List.erase_cons_head, List.erase_cons_head, List.take_take,
          Nat.min_self]
      · rw [List.take_succ_cons, List.erase_cons_tail (by simpa using hk),
          List.erase_cons_tail (by simpa using hk)]
        cases n with
        | zero => rfl
        | succ n => rw [List.take_succ_cons, List.take_succ_cons, ih]

/-- The keys held after a use: the used one, and those held before it without the one
that is too many. -/
theorem take_touch (key : κ) (keys : List κ) (n : Nat) :
    (touch key keys).take (n + 1) = key :: ((keys.take (n + 1)).erase key).take n := by
  rw [touch, List.take_succ_cons, take_erase_take]

/-- Using a key that is held only reorders the keys held. -/
theorem take_touch_of_mem {key : κ} {keys : List κ} {n : Nat} (h : key ∈ keys.take n) :
    (touch key keys).take n = touch key (keys.take n) := by
  cases n with
  | zero => simp at h
  | succ n =>
      rw [take_touch, touch, List.take_of_length_le]
      have hlength := List.length_erase_of_mem h
      have htake := List.length_take_le (n + 1) keys
      omega

/-- Without repetition a key is at one place, from either end. -/
theorem reverse_erase {keys : List κ} (h : keys.Nodup) (key : κ) :
    (keys.erase key).reverse = keys.reverse.erase key := by
  rw [h.erase_eq_filter, (List.nodup_reverse.2 h).erase_eq_filter, List.filter_reverse]

end Touch

section Unique

variable {key : α → κ}

/-- Entries of one key are one entry. -/
theorem eq_of_nodup_map {l : List α} {x y : α} (h : (l.map key).Nodup) (hx : x ∈ l) (hy : y ∈ l)
    (heq : key x = key y) : x = y :=
  List.inj_on_of_nodup_map h hx hy heq

/-- An entry behind entries of other keys. -/
theorem nodup_map_concat {l : List α} {x : α} (h : (l.map key).Nodup) (hx : key x ∉ l.map key) :
    ((l ++ [x]).map key).Nodup := by
  rw [List.map_append, List.map_singleton, ← List.concat_eq_append]
  exact h.concat hx

variable [DecidableEq κ]

/-- The entry of a key, wherever it stands. -/
theorem find?_of_nodup {l : List α} {x : α} (h : (l.map key).Nodup) (hx : x ∈ l) :
    l.find? (key · = key x) = some x := by
  cases hfound : l.find? (key · = key x) with
  | none =>
      have hnone := List.find?_eq_none.1 hfound x hx
      simp at hnone
  | some y =>
      have hkey : key y = key x := by simpa using List.find?_some hfound
      rw [eq_of_nodup_map h (List.mem_of_find?_eq_some hfound) hx hkey]

/-- Taking out the entry of a key, where it stands. -/
theorem eraseP_of_nodup {before after : List α} {x : α}
    (h : ((before ++ x :: after).map key).Nodup) :
    (before ++ x :: after).eraseP (key · = key x) = before ++ after := by
  have hbefore : ∀ y ∈ before, ¬ decide (key y = key x) = true := by
    intro y hy heq
    have hx : key x ∈ (x :: after).map key := by simp
    have hdisjoint := List.disjoint_of_nodup_append (List.map_append (f := key) ▸ h)
    exact hdisjoint (List.mem_map_of_mem hy) (of_decide_eq_true heq ▸ hx)
  rw [List.eraseP_append_right _ hbefore, List.eraseP_cons_of_pos (by simp)]

theorem filter_of_nodup_map {l : List α} {x : α} (h : (l.map key).Nodup) (hx : x ∈ l) :
    l.filter (key · = key x) = [x] := by
  have hmem : ∀ y ∈ l.filter (key · = key x), y = x := by
    intro y hy
    obtain ⟨hy, hkey⟩ := List.mem_filter.1 hy
    exact eq_of_nodup_map h hy hx (of_decide_eq_true hkey)
  have hx' : x ∈ l.filter (key · = key x) := List.mem_filter.2 ⟨hx, decide_eq_true rfl⟩
  have hnodup : (l.filter (key · = key x)).Nodup := (List.Nodup.of_map key h).filter _
  exact List.perm_singleton.1 ((List.perm_ext_iff_of_nodup hnodup (List.nodup_singleton x)).2
    fun y => ⟨fun hy => List.mem_singleton.2 (hmem y hy), fun hy => List.mem_singleton.1 hy ▸ hx'⟩)

/-- Taking out an entry takes out its key. -/
theorem map_eraseP (key : α → κ) (l : List α) (k : κ) :
    (l.eraseP (key · = k)).map key = (l.map key).erase k := by
  rw [List.erase_eq_eraseP', List.eraseP_map]
  rfl

theorem notMem_map_eraseP {l : List α} (h : (l.map key).Nodup) (k : κ) :
    k ∉ (l.eraseP (key · = k)).map key := by
  rw [map_eraseP]
  exact h.not_mem_erase

end Unique

end Foundation
end Archinix
