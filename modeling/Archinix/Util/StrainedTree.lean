import Archinix.Host.Labels

/-!
# Trees with entries left out

`Tree.strain` leaves out the entries a test turns down, with all below them.  It keeps a
tree one that an archive can describe, and `get?_strain` finds what is left at a path.
-/

namespace Archinix
namespace Util

open Host

namespace Tree

mutual

/-- The tree, at `path`, without the entries that `keep` turns down. -/
def strain (keep : CanonPath → Bool) (path : CanonPath) : Tree → Tree
  | .regular executable contents => .regular executable contents
  | .symlink target => .symlink target
  | .directory entries => .directory (strainEntries keep path entries)

def strainEntries (keep : CanonPath → Bool) (path : CanonPath) :
    List (Name × Tree) → List (Name × Tree)
  | [] => []
  | (name, child) :: rest =>
      if keep (path ++ [name]) then
        (name, child.strain keep (path ++ [name])) :: strainEntries keep path rest
      else strainEntries keep path rest

end

/-- The object at a name of a directory. -/
def child? : Tree → Name → Option Tree
  | .directory entries, name => (entries.find? (·.1 = name)).map (·.2)
  | _, _ => none

section Lookup

variable {keep : CanonPath → Bool} {path q : CanonPath} {t u : Tree} {name : Name}
  {entries : List (Name × Tree)}

theorem get?_cons : t.get? (name :: q) = (t.child? name).bind fun c => c.get? q := by
  cases t with
  | regular executable contents => rfl
  | symlink target => rfl
  | directory entries =>
      rw [get?, child?]
      cases entries.find? (·.1 = name) with
      | none => rfl
      | some e => rfl

@[simp] theorem get?_nil (t : Tree) : t.get? [] = some t := by cases t <;> rfl

theorem mem_strainEntries {e : Name × Tree} : e ∈ strainEntries keep path entries ↔
    keep (path ++ [e.1]) = true ∧ ∃ c, (e.1, c) ∈ entries ∧ e.2 = c.strain keep (path ++ [e.1]) := by
  induction entries with
  | nil => simp [strainEntries]
  | cons first rest ih =>
      obtain ⟨name, child⟩ := first
      rw [strainEntries]
      split
      · rename_i hkeep
        rw [List.mem_cons, ih]
        constructor
        · rintro (rfl | ⟨hkeep', c, hc, h⟩)
          · exact ⟨hkeep, child, by simp, rfl⟩
          · exact ⟨hkeep', c, List.mem_cons_of_mem _ hc, h⟩
        · rintro ⟨hkeep', c, hc, he⟩
          rcases List.mem_cons.mp hc with heq | hc
          · obtain ⟨rfl, rfl⟩ := Prod.mk.inj heq
            exact Or.inl (Prod.ext rfl he)
          · exact Or.inr ⟨hkeep', c, hc, he⟩
      · rename_i hdrop
        rw [ih]
        constructor
        · rintro ⟨hkeep', c, hc, h⟩
          exact ⟨hkeep', c, List.mem_cons_of_mem _ hc, h⟩
        · rintro ⟨hkeep', c, hc, he⟩
          rcases List.mem_cons.mp hc with heq | hc
          · obtain ⟨rfl, rfl⟩ := Prod.mk.inj heq
            exact absurd hkeep' hdrop
          · exact ⟨hkeep', c, hc, he⟩

variable (keep path entries) in
theorem map_strainEntries_sublist :
    ((strainEntries keep path entries).map (·.1)).Sublist (entries.map (·.1)) := by
  induction entries with
  | nil => exact List.Sublist.refl _
  | cons first rest ih =>
      obtain ⟨name, child⟩ := first
      rw [strainEntries]
      split
      · exact ih.cons_cons name
      · exact ih.cons name

/-- The first entry of a name decides, before and after. -/
theorem find?_strainEntries :
    ((strainEntries keep path entries).find? (·.1 = name)).map (·.2) =
      if keep (path ++ [name]) then
        ((entries.find? (·.1 = name)).map (·.2)).map (strain keep (path ++ [name]))
      else none := by
  induction entries with
  | nil => simp [strainEntries]
  | cons first rest ih =>
      obtain ⟨n, child⟩ := first
      rw [strainEntries]
      by_cases hn : n = name
      · obtain rfl := hn
        split
        · simp
        · rename_i hdrop
          rw [ih, if_neg hdrop]
      · rw [List.find?_cons_of_neg (by simpa using hn), ← ih]
        split
        · rw [List.find?_cons_of_neg (by simpa using hn)]
        · rfl

theorem child?_strain : (t.strain keep path).child? name =
    if keep (path ++ [name]) then (t.child? name).map (strain keep (path ++ [name])) else none := by
  cases t with
  | regular executable contents => simp [strain, child?]
  | symlink target => simp [strain, child?]
  | directory entries => rw [strain, child?, find?_strainEntries, child?]

/-- What is found is what was there, strained, where the test lets it pass; with a path
the test passes all paths on the way to it. -/
theorem get?_strain (hclosed : ∀ r s, keep (r ++ s) = true → keep r = true)
    (hpath : keep path = true) : (t.strain keep path).get? q =
      if keep (path ++ q) then (t.get? q).map (strain keep (path ++ q)) else none := by
  induction q generalizing t path with
  | nil => simp [hpath]
  | cons name q ih =>
      rw [get?_cons, get?_cons, child?_strain, List.append_cons path name q]
      by_cases hkeep : keep (path ++ [name]) = true
      · rw [if_pos hkeep]
        cases t.child? name with
        | none => simp
        | some c => exact ih hkeep
      · rw [if_neg hkeep, if_neg fun h => hkeep (hclosed _ _ h)]
        rfl

end Lookup

section Shape

variable {keep : CanonPath → Bool} {path : CanonPath} {t : Tree}

@[simp] theorem treeLabel_strain (t : Tree) : treeLabel (t.strain keep path) = treeLabel t := by
  cases t <;> rfl

theorem strain_representable (ht : t.Representable) : (t.strain keep path).Representable := by
  induction ht generalizing path with
  | regular executable hsize => exact .regular executable hsize
  | symlink htarget => exact .symlink htarget
  | directory hnames hsorted hchildren ih =>
      refine .directory (fun e he => ?_) (hsorted.sublist (map_strainEntries_sublist _ _ _))
        fun e he => ?_
      · obtain ⟨-, c, hc, -⟩ := mem_strainEntries.mp he
        exact hnames (e.1, c) hc
      · obtain ⟨-, c, hc, hchild⟩ := mem_strainEntries.mp he
        rw [hchild]
        exact ih _ hc

theorem height_strain_le (t : Tree) : (t.strain keep path).height ≤ t.height := by
  induction t using Tree.inductionOn generalizing path with
  | regular executable contents => exact le_refl _
  | symlink target => exact le_refl _
  | directory entries ih =>
      rw [strain, height, height]
      refine Nat.succ_le_succ (heightEntries_le fun e he => ?_)
      obtain ⟨-, c, hc, hchild⟩ := mem_strainEntries.mp he
      rw [hchild]
      exact (ih _ hc).trans (height_le_heightEntries hc)

end Shape

end Tree

end Util
end Archinix
