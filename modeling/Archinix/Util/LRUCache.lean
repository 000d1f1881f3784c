import Mathlib.Data.List.Nodup
import Mathlib.Data.List.Perm.Basic

/-!
# A least-recently-used cache

The class `LRUCache` of `lru-cache.hh`.  Its map and the list that orders the map's
iterators hold the same entries, so they are one list here, the oldest entry first; that
keys are distinct and that there are no more entries than the capacity allows is part of
the type.
-/

namespace Archinix
namespace Util

structure LRUCache (κ ν : Type) where
  capacity : Nat
  /-- The least recently used first. -/
  data : List (κ × ν)
  nodup : (data.map Prod.fst).Nodup
  size_le : data.length ≤ capacity

namespace LRUCache

variable {κ ν : Type}

/-- `LRUCache(capacity)`. -/
def make (capacity : Nat) : LRUCache κ ν := ⟨capacity, [], List.nodup_nil, Nat.zero_le _⟩

def size (c : LRUCache κ ν) : Nat := c.data.length

def clear (c : LRUCache κ ν) : LRUCache κ ν := make c.capacity

@[simp] theorem data_make (capacity : Nat) : (make capacity : LRUCache κ ν).data = [] := rfl

@[simp] theorem size_make (capacity : Nat) : (make capacity : LRUCache κ ν).size = 0 := rfl

@[simp] theorem data_clear (c : LRUCache κ ν) : c.clear.data = [] := rfl

@[simp] theorem size_clear (c : LRUCache κ ν) : c.clear.size = 0 := rfl

variable [DecidableEq κ]

/-- The entry of a key is taken out. -/
theorem perm_eraseP {key : κ} {l : List (κ × ν)} {e : κ × ν} (h : l.find? (·.1 = key) = some e) :
    (e :: l.eraseP (·.1 = key)).Perm l := by
  induction l with
  | nil => cases h
  | cons d rest ih =>
      by_cases hd : d.1 = key
      · rw [List.find?_cons_of_pos (by simpa using hd)] at h
        cases h
        rw [List.eraseP_cons_of_pos (by simpa using hd)]
      · rw [List.find?_cons_of_neg (by simpa using hd)] at h
        rw [List.eraseP_cons_of_neg (by simpa using hd)]
        exact (List.Perm.swap d e _).trans ((ih h).cons d)

/-- Without its entry the key is not there. -/
theorem notMem_eraseP {key : κ} {l : List (κ × ν)} (hnodup : (l.map Prod.fst).Nodup) :
    key ∉ (l.eraseP (·.1 = key)).map Prod.fst := by
  induction l with
  | nil => simp
  | cons d rest ih =>
      rw [List.map_cons, List.nodup_cons] at hnodup
      by_cases hd : d.1 = key
      · rw [List.eraseP_cons_of_pos (by simpa using hd)]
        exact hd ▸ hnodup.1
      · rw [List.eraseP_cons_of_neg (by simpa using hd), List.map_cons, List.mem_cons]
        exact not_or.2 ⟨fun h => hd h.symm, ih hnodup.2⟩

omit [DecidableEq κ] in
/-- An entry behind entries of other keys. -/
theorem nodup_append_single {key : κ} {value : ν} {l : List (κ × ν)} (hnodup : (l.map Prod.fst).Nodup)
    (hkey : key ∉ l.map Prod.fst) : ((l ++ [(key, value)]).map Prod.fst).Nodup := by
  rw [List.map_append, List.nodup_append]
  refine ⟨hnodup, List.nodup_singleton _, fun a ha b hb => ?_⟩
  obtain rfl : b = key := by simpa using hb
  exact fun heq => hkey (heq ▸ ha)

/-- The entries without that of a key, and without the oldest where they are too many. -/
def retire (c : LRUCache κ ν) (key : κ) : List (κ × ν) :=
  let erased := c.data.eraseP (·.1 = key)
  if c.capacity ≤ erased.length then erased.tail else erased

theorem retire_sublist (c : LRUCache κ ν) (key : κ) :
    (c.retire key).Sublist (c.data.eraseP (·.1 = key)) := by
  simp only [retire]
  split
  · exact List.tail_sublist _
  · exact List.Sublist.refl _

theorem length_retire {c : LRUCache κ ν} (hcapacity : c.capacity ≠ 0) (key : κ) :
    (c.retire key).length < c.capacity := by
  have herased : (c.data.eraseP (·.1 = key)).length ≤ c.data.length := List.eraseP_sublist.length_le
  have hsize := c.size_le
  simp only [retire]
  split
  · rw [List.length_tail]
    omega
  · omega

/-- Insert or replace. -/
def upsert (c : LRUCache κ ν) (key : κ) (value : ν) : LRUCache κ ν :=
  if hcapacity : c.capacity = 0 then c
  else
    { capacity := c.capacity
      data := c.retire key ++ [(key, value)]
      nodup := by
        have hsub := (c.retire_sublist key).map Prod.fst
        exact nodup_append_single ((c.nodup.sublist (List.eraseP_sublist.map Prod.fst)).sublist hsub)
          fun hkey => notMem_eraseP c.nodup (hsub.subset hkey)
      size_le := by
        have := length_retire hcapacity key
        rw [List.length_append, List.length_singleton]
        omega }

/-- Look up; an entry that is found becomes the most recently used. -/
def get (c : LRUCache κ ν) (key : κ) : Option ν × LRUCache κ ν :=
  match hfound : c.data.find? (·.1 = key) with
  | none => (none, c)
  | some e =>
      (some e.2,
        { capacity := c.capacity
          data := c.data.eraseP (·.1 = key) ++ [(key, e.2)]
          nodup := nodup_append_single (c.nodup.sublist (List.eraseP_sublist.map Prod.fst))
            (notMem_eraseP c.nodup)
          size_le := by
            have hlength := (perm_eraseP hfound).length_eq
            rw [List.length_cons] at hlength
            rw [List.length_append, List.length_singleton, hlength]
            exact c.size_le })

variable {c : LRUCache κ ν} {key : κ} {value : ν} {e : κ × ν}

@[simp] theorem capacity_upsert : (c.upsert key value).capacity = c.capacity := by
  unfold upsert
  split <;> rfl

theorem data_upsert (hcapacity : c.capacity ≠ 0) :
    (c.upsert key value).data = c.retire key ++ [(key, value)] := by
  rw [upsert, dif_neg hcapacity]

theorem get_of_find?_none (h : c.data.find? (·.1 = key) = none) : c.get key = (none, c) := by
  unfold get
  split
  · rfl
  · rename_i e hfound
    rw [h] at hfound
    cases hfound

theorem get_of_find?_some (h : c.data.find? (·.1 = key) = some e) :
    (c.get key).1 = some e.2 ∧ (c.get key).2.capacity = c.capacity ∧
      (c.get key).2.data = c.data.eraseP (·.1 = key) ++ [(key, e.2)] := by
  unfold get
  split
  · rename_i hfound
    rw [h] at hfound
    cases hfound
  · rename_i d hfound
    obtain rfl : e = d := Option.some.inj (h.symm.trans hfound)
    exact ⟨rfl, rfl, rfl⟩

theorem mem_upsert (h : e ∈ (c.upsert key value).data) : e = (key, value) ∨ e ∈ c.data := by
  unfold upsert at h
  split at h
  · exact .inr h
  · rcases List.mem_append.1 h with h | h
    · exact .inr (List.eraseP_sublist.subset ((c.retire_sublist key).subset h))
    · exact .inl (List.mem_singleton.1 h)

/-- What `get` answers, with the cache it leaves. -/
theorem get_cases (c : LRUCache κ ν) (key : κ) :
    c.get key = (none, c) ∨ ∃ value c', c.get key = (some value, c') ∧ (key, value) ∈ c.data ∧
      c'.data.Perm c.data := by
  unfold get
  split
  · exact .inl rfl
  · rename_i e hfound
    right
    have he : (key, e.2) = e := by
      rw [← show e.1 = key by simpa using List.find?_some hfound]
    have hmem := List.mem_of_find?_eq_some hfound
    have hperm := perm_eraseP hfound
    rw [← he] at hmem hperm
    exact ⟨_, _, rfl, hmem, (List.perm_append_singleton _ _).trans hperm⟩

theorem mem_of_get (h : (c.get key).1 = some value) : (key, value) ∈ c.data := by
  rcases get_cases c key with hget | ⟨v, c', hget, hmem, -⟩
  · rw [hget] at h
    cases h
  · rw [hget] at h
    obtain rfl : v = value := Option.some.inj h
    exact hmem

/-- Looking up only reorders the entries. -/
theorem data_get_perm (c : LRUCache κ ν) (key : κ) : (c.get key).2.data.Perm c.data := by
  rcases get_cases c key with hget | ⟨v, c', hget, -, hperm⟩
  · rw [hget]
  · rw [hget]
    exact hperm

end LRUCache

end Util
end Archinix
