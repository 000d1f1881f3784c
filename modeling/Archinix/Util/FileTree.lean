import Archinix.Util.Bytes

/-!
# File system objects

`Tree` is the file system object of `memory-source-accessor.hh`: a regular file
with its executable bit, a directory mapping names to objects, or a symlink.
Directory entries are kept as the `std::map` of the source keeps them, in
ascending byte order of their names.
-/

namespace Archinix
namespace Util

/-- One component of a path. -/
abbrev Name := Bytes

/-- `CanonPath` as the list of its components. -/
abbrev CanonPath := List Name

namespace CanonPath

/-- `CanonPath::abs()`: the components joined and led by slashes, `/` for the
root. -/
def abs (path : CanonPath) : Bytes :=
  match path with
  | [] => str "/"
  | _ => path.flatMap fun name => str "/" ++ name

end CanonPath

/-- `fso::VariantT<std::string, true>`. -/
inductive Tree where
  | regular (executable : Bool) (contents : Bytes)
  | directory (entries : List (Name × Tree))
  | symlink (target : Bytes)

namespace Tree

private theorem sizeOf_entry_lt {entries : List (Name × Tree)} {e : Name × Tree}
    (he : e ∈ entries) : sizeOf e.2 < sizeOf (Tree.directory entries) := by
  have hmem := List.sizeOf_lt_of_mem he
  rcases e with ⟨name, child⟩
  simp only [Prod.mk.sizeOf_spec, Tree.directory.sizeOf_spec] at hmem ⊢
  omega

/-- Structural induction with the hypothesis available for every entry. -/
@[elab_as_elim]
theorem inductionOn {motive : Tree → Prop} (t : Tree)
    (regular : ∀ executable contents, motive (.regular executable contents))
    (directory : ∀ entries, (∀ e ∈ entries, motive e.2) → motive (.directory entries))
    (symlink : ∀ target, motive (.symlink target)) : motive t := by
  match t with
  | .regular executable contents => exact regular executable contents
  | .symlink target => exact symlink target
  | .directory entries =>
      exact directory entries fun e he => inductionOn e.2 regular directory symlink
termination_by sizeOf t
decreasing_by exact sizeOf_entry_lt he

mutual

/-- Number of nested levels: a leaf or an empty directory has height one. -/
def height : Tree → Nat
  | .regular _ _ => 1
  | .symlink _ => 1
  | .directory entries => heightEntries entries + 1

/-- The largest height among a directory's entries, zero when it has none. -/
def heightEntries : List (Name × Tree) → Nat
  | [] => 0
  | (_, child) :: rest => max child.height (heightEntries rest)

end

theorem height_le_heightEntries {entries : List (Name × Tree)} {e : Name × Tree}
    (he : e ∈ entries) : e.2.height ≤ heightEntries entries := by
  induction entries with
  | nil => cases he
  | cons first rest ih =>
      simp only [heightEntries]
      rcases List.mem_cons.mp he with rfl | hrest
      · exact le_max_left _ _
      · exact (ih hrest).trans (le_max_right _ _)

theorem heightEntries_le {entries : List (Name × Tree)} {bound : Nat}
    (h : ∀ e ∈ entries, e.2.height ≤ bound) : heightEntries entries ≤ bound := by
  induction entries with
  | nil => simp [heightEntries]
  | cons first rest ih =>
      simp only [heightEntries]
      exact max_le (h first (by simp)) (ih fun e he => h e (List.mem_cons_of_mem _ he))

/-- The object at a path below a tree. -/
def get? : Tree → CanonPath → Option Tree
  | t, [] => some t
  | .directory entries, name :: rest =>
      match entries.find? (·.1 = name) with
      | some (_, child) => child.get? rest
      | none => none
  | _, _ :: _ => none

mutual

/-- The paths below a tree at which there is an object. -/
def paths : Tree → List CanonPath
  | .regular _ _ => [[]]
  | .symlink _ => [[]]
  | .directory entries => [] :: pathsEntries entries

def pathsEntries : List (Name × Tree) → List CanonPath
  | [] => []
  | (name, child) :: rest => child.paths.map (name :: ·) ++ pathsEntries rest

end

end Tree

/-- A file name an archive may carry: one to 255 bytes, not `.` or `..`, no
slash and no NUL. -/
structure ValidName (name : Name) : Prop where
  nonempty : name ≠ []
  bounded : name.length ≤ 255
  notDot : name ≠ str "."
  notDotDot : name ≠ str ".."
  noSlash : (47 : UInt8) ∉ name
  noNul : (0 : UInt8) ∉ name

instance (name : Name) : Decidable (ValidName name) :=
  decidable_of_iff
    (name ≠ [] ∧ name.length ≤ 255 ∧ name ≠ str "." ∧ name ≠ str ".." ∧
      (47 : UInt8) ∉ name ∧ (0 : UInt8) ∉ name)
    ⟨fun ⟨h₁, h₂, h₃, h₄, h₅, h₆⟩ => ⟨h₁, h₂, h₃, h₄, h₅, h₆⟩,
      fun ⟨h₁, h₂, h₃, h₄, h₅, h₆⟩ => ⟨h₁, h₂, h₃, h₄, h₅, h₆⟩⟩

/-- A symlink target an archive may carry: one to 4095 bytes, no NUL. -/
structure ValidTarget (target : Bytes) : Prop where
  nonempty : target ≠ []
  bounded : target.length ≤ 4095
  noNul : (0 : UInt8) ∉ target

/-- The trees an archive can describe, apart from the bound on their nesting:
valid names in strictly ascending order, valid targets, and file sizes that a
`size_t` holds. -/
inductive Tree.Representable : Tree → Prop
  | regular (executable : Bool) {contents : Bytes} (hsize : contents.length < 2 ^ 64) :
      Representable (.regular executable contents)
  | symlink {target : Bytes} (htarget : ValidTarget target) : Representable (.symlink target)
  | directory {entries : List (Name × Tree)}
      (hnames : ∀ e ∈ entries, ValidName e.1)
      (hsorted : (entries.map (·.1)).Pairwise (· < ·))
      (hchildren : ∀ e ∈ entries, Representable e.2) :
      Representable (.directory entries)

end Util
end Archinix
