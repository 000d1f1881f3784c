import Archinix.Nixgen.Overlay

/-!
# The files scripts see

The tree of a running machine, with what the scripts ask of it: whether a path leads
to a directory, symlinks followed; `mkdir -p`; and a copy of one directory over another.
Nothing a script does to it here takes a node away.
-/

namespace Archinix
namespace Nixgen

open Util Host

/-- A tree: it has a root, and nodes lie in directories. -/
structure Files where
  node : Path → Option FileNode
  root : ∃ metadata, node [] = some (.directory metadata)
  parent_dir : ∀ x name, node (x ++ [name]) ≠ none → ∃ metadata, node x = some (.directory metadata)

namespace Files

variable (F : Files)

def IsDir (x : Path) : Prop := ∃ metadata, F.node x = some (.directory metadata)

instance (x : Path) : Decidable (F.IsDir x) :=
  match h : F.node x with
  | some (.directory metadata) => isTrue ⟨metadata, h⟩
  | some (.regular _ _) | some (.symlink _ _) | some (.special _ _) | none =>
      isFalse fun ⟨metadata, hdir⟩ => by rw [h] at hdir; cases hdir

/-! ## Following a path -/

/-- The components of a path; repeated slashes count once. -/
def components (path : Bytes) : List Name := (path.splitOn 47).filter (· ≠ [])

/-- The directory some components lead to from another one.  `follow` goes on behind a
symlink. -/
def walkWith (follow : Path → List Name → Option Path) : Path → List Name → Option Path
  | dir, [] => some dir
  | dir, name :: rest =>
      if name = str "." then walkWith follow dir rest
      else if name = str ".." then walkWith follow (parentDir dir) rest
      else
        match F.node (dir ++ [name]) with
        | some (.directory _) => walkWith follow (dir ++ [name]) rest
        | some (.symlink target _) =>
            follow (if (str "/").isPrefixOf target then [] else dir) (components target ++ rest)
        | _ => none

/-- The same with a number of symlinks that may be followed. -/
def walk : Nat → Path → List Name → Option Path
  | 0 => F.walkWith fun _ _ => none
  | n + 1 => F.walkWith (walk n)

/-- The kernel gives up on a path with more symlinks than this. -/
def maxSymlinks : Nat := 40

/-- `[ -d path ]`: the directory the path leads to. -/
def directoryAt (path : Path) : Option Path := F.walk maxSymlinks [] path

/-! ## Changes -/

/-- What `mkdir` makes under root's `umask`. -/
def newDirectory : FileNode := .directory ⟨0o755, 0, 0⟩

/-- `mkdir` of a name that is free. -/
def mkdir (dir : Path) (name : Name) : Files :=
  if h : F.IsDir dir ∧ F.node (dir ++ [name]) = none then
    { node := fun x => if x = dir ++ [name] then some newDirectory else F.node x
      root := by
        obtain ⟨metadata, hroot⟩ := F.root
        exact ⟨metadata, by simp [hroot]⟩
      parent_dir := fun x last hx => by
        by_cases hnew : x ++ [last] = dir ++ [name]
        · obtain ⟨rfl, -⟩ := List.append_inj' hnew rfl
          obtain ⟨metadata, hdir⟩ := h.1
          exact ⟨metadata, by rw [if_neg (by simp), hdir]⟩
        · rw [if_neg hnew] at hx
          obtain ⟨metadata, hdir⟩ := F.parent_dir x last hx
          refine ⟨metadata, ?_⟩
          rw [if_neg, hdir]
          rintro rfl
          rw [h.2] at hdir
          cases hdir }
  else F

/-- A tree in place of the directory `dir`. -/
def graft (dir : Path) (tree : Files) : Files :=
  if h : F.IsDir dir then
    { node := fun x => if dir <+: x then tree.node (x.drop dir.length) else F.node x
      root := by
        by_cases hroot : dir <+: []
        · rw [if_pos hroot, List.drop_nil]
          exact tree.root
        · rw [if_neg hroot]
          exact F.root
      parent_dir := fun x name hx => by
        by_cases hbelow : dir <+: x
        · obtain ⟨r, rfl⟩ := hbelow
          rw [if_pos ((List.prefix_append _ _).trans (List.prefix_append _ _)), List.append_assoc,
            List.drop_left] at hx
          rw [if_pos (List.prefix_append _ _), List.drop_left]
          exact tree.parent_dir r name hx
        · rw [if_neg hbelow]
          by_cases hself : dir <+: x ++ [name]
          · obtain rfl := (List.prefix_concat_iff.mp hself).resolve_right hbelow
            obtain ⟨metadata, hdir⟩ := h
            exact F.parent_dir x name (by rw [hdir]; simp)
          · rw [if_neg hself] at hx
            exact F.parent_dir x name hx }
  else F

/-- The tree below a directory. -/
def subtree (dir : Path) : Files :=
  if h : F.IsDir dir then
    { node := fun r => F.node (dir ++ r)
      root := by rw [List.append_nil]; exact h
      parent_dir := fun r name hr => F.parent_dir (dir ++ r) name (by rwa [List.append_assoc]) }
  else F

/-- `mkdir -p`: the components of `path` that are left to make, after those that are there.
`limit` is the number of directories after which it is cut off or fails.  What it has made,
and the directory the path leads to. -/
def makePath (F : Files) (limit : Option Nat) (path : Path) : List Name → Files × Option Path
  | [] => (F, F.directoryAt path)
  | name :: rest =>
      if (F.directoryAt (path ++ [name])).isSome then F.makePath limit (path ++ [name]) rest
      else
        match F.directoryAt path with
        | none => (F, none)
        | some dir =>
            -- what is there is not a directory, or a symlink that leads to none
            if F.node (dir ++ [name]) ≠ none then (F, none)
            else if limit = some 0 then (F, none)
            else (F.mkdir dir name).makePath (limit.map (· - 1)) (path ++ [name]) rest

/-- Each node lies in the root or in a directory of the list. -/
def WellFormed (nodes : List (Path × FileNode)) : Bool :=
  nodes.all fun e => parentDir e.1 = [] ||
    match nodes.lookup (parentDir e.1) with
    | some (.directory _) => true
    | _ => false

/-- The tree with the given nodes below its root. -/
def ofNodes (nodes : List (Path × FileNode)) (h : WellFormed nodes = true) : Files where
  node x := if x = [] then some newDirectory else nodes.lookup x
  root := ⟨_, rfl⟩
  parent_dir x name hx := by
    rw [if_neg (by simp)] at hx
    obtain ⟨n, hn⟩ := Option.ne_none_iff_exists'.mp hx
    obtain ⟨l₁, l₂, rfl, -⟩ := List.lookup_eq_some_iff.mp hn
    have hcheck := List.all_eq_true.mp h (x ++ [name], n) (by simp)
    simp only [parentDir_append, Bool.or_eq_true, decide_eq_true_eq] at hcheck
    by_cases hroot : x = []
    · exact ⟨_, if_pos hroot⟩
    · rw [if_neg hroot]
      have hdir := hcheck.resolve_left hroot
      split at hdir
      · rename_i metadata hmetadata
        exact ⟨metadata, hmetadata⟩
      · cases hdir

/-! ## What stays -/

/-- Every node of `F` is still there in `F'`. -/
def Kept (F F' : Files) : Prop := ∀ x n, F.node x = some n → F'.node x = some n

variable {F} {F' F'' : Files} {x y dir : Path} {name : Name}

theorem Kept.refl (F : Files) : Kept F F := fun _ _ h => h

theorem Kept.trans (h : Kept F F') (h' : Kept F' F'') : Kept F F'' :=
  fun x n hn => h' x n (h x n hn)

theorem Kept.isDir (h : Kept F F') (hx : F.IsDir x) : F'.IsDir x := by
  obtain ⟨metadata, hdir⟩ := hx
  exact ⟨metadata, h x _ hdir⟩

theorem isDir_of_below (hy : F.node y ≠ none) (hx : x <+: y) (hne : x ≠ y) : F.IsDir x := by
  obtain ⟨r, rfl⟩ := hx
  induction r using List.reverseRecOn with
  | nil => simp at hne
  | append_singleton r name ih =>
      rw [← List.append_assoc] at hy
      obtain ⟨metadata, hdir⟩ := F.parent_dir _ _ hy
      rcases List.eq_nil_or_concat' r with rfl | ⟨r', last, rfl⟩
      · rw [List.append_nil] at hdir
        exact ⟨metadata, hdir⟩
      · exact ih (by rw [hdir]; simp) (by simp)

theorem IsDir.of_prefix (hy : F.IsDir y) (hx : x <+: y) : F.IsDir x := by
  by_cases hne : x = y
  · rwa [hne]
  · obtain ⟨metadata, hdir⟩ := hy
    exact isDir_of_below (by rw [hdir]; simp) hx hne

theorem Kept.walkWith {follow follow' : Path → List Name → Option Path} (h : Kept F F')
    (hfollow : ∀ dir todo t, follow dir todo = some t → follow' dir todo = some t) {todo : List Name}
    {t : Path} (ht : F.walkWith follow dir todo = some t) :
    F'.walkWith follow' dir todo = some t := by
  induction todo generalizing dir with
  | nil => exact ht
  | cons name rest ih =>
      rw [Files.walkWith] at ht ⊢
      split_ifs at ht ⊢ with hdot hup
      · exact ih ht
      · exact ih ht
      · cases hnode : F.node (dir ++ [name]) with
        | none => simp [hnode] at ht
        | some n =>
            rw [hnode] at ht
            rw [h _ _ hnode]
            cases n with
            | directory metadata => exact ih ht
            | symlink target metadata => exact hfollow _ _ _ ht
            | regular contents metadata => cases ht
            | special type metadata => cases ht

theorem Kept.walk (h : Kept F F') {n : Nat} {todo : List Name} {t : Path}
    (ht : F.walk n dir todo = some t) : F'.walk n dir todo = some t := by
  induction n generalizing dir todo t with
  | zero => exact h.walkWith (fun _ _ _ ht => ht) ht
  | succ n ih => exact h.walkWith (fun _ _ _ ht => ih ht) ht

theorem Kept.directoryAt (h : Kept F F') {t : Path} (ht : F.directoryAt x = some t) :
    F'.directoryAt x = some t := h.walk ht

theorem walkWith_leads {follow : Path → List Name → Option Path} {todo : List Name} {t : Path}
    (hfollow : ∀ dir todo t, F.IsDir dir → follow dir todo = some t → F.IsDir t) (hdir : F.IsDir dir)
    (ht : F.walkWith follow dir todo = some t) : F.IsDir t := by
  induction todo generalizing dir with
  | nil =>
      obtain rfl := Option.some.inj ht
      exact hdir
  | cons name rest ih =>
      rw [walkWith] at ht
      split_ifs at ht with hdot hup
      · exact ih hdir ht
      · exact ih (hdir.of_prefix (List.dropLast_prefix dir)) ht
      · cases hnode : F.node (dir ++ [name]) with
        | none => simp [hnode] at ht
        | some n =>
            rw [hnode] at ht
            cases n with
            | directory metadata => exact ih ⟨metadata, hnode⟩ ht
            | symlink target metadata =>
                refine hfollow _ _ _ ?_ ht
                split_ifs
                · exact F.root
                · exact hdir
            | regular contents metadata => cases ht
            | special type metadata => cases ht

/-- A path leads to a directory. -/
theorem walk_leads {n : Nat} {todo : List Name} {t : Path} (hdir : F.IsDir dir)
    (ht : F.walk n dir todo = some t) : F.IsDir t := by
  induction n generalizing dir todo t with
  | zero => exact walkWith_leads (fun _ _ _ _ h => by cases h) hdir ht
  | succ n ih => exact walkWith_leads (fun _ _ _ hdir h => ih hdir h) hdir ht

/-! ## Direct paths -/

/-- Neither `.` nor `..`. -/
def Plain (name : Name) : Prop := name ≠ str "." ∧ name ≠ str ".."

instance (name : Name) : Decidable (Plain name) := inferInstanceAs (Decidable (_ ∧ _))

/-- A path below `dir` along directories. -/
theorem walkWith_isDir {follow : Path → List Name → Option Path} {todo : List Name}
    (hplain : ∀ name ∈ todo, Plain name) (h : F.IsDir (dir ++ todo)) :
    F.walkWith follow dir todo = some (dir ++ todo) := by
  induction todo generalizing dir with
  | nil => simp [walkWith]
  | cons name rest ih =>
      obtain ⟨hdot, hup⟩ := hplain name List.mem_cons_self
      rw [List.append_cons] at h
      obtain ⟨metadata, hdir⟩ := h.of_prefix (List.prefix_append (dir ++ [name]) rest)
      rw [walkWith, if_neg hdot, if_neg hup, hdir, List.append_cons dir name rest]
      exact ih (fun name hname => hplain name (List.mem_cons_of_mem _ hname)) h

theorem walk_isDir {n : Nat} {todo : List Name} (hplain : ∀ name ∈ todo, Plain name)
    (h : F.IsDir (dir ++ todo)) : F.walk n dir todo = some (dir ++ todo) := by
  cases n with
  | zero => exact walkWith_isDir hplain h
  | succ n => exact walkWith_isDir hplain h

/-- A path without `.` and `..` that goes through no symlink. -/
structure Direct (F : Files) (x : Path) : Prop where
  plain : ∀ name ∈ x, Plain name
  no_link : ∀ y, y <+: x → ∀ target metadata, F.node y ≠ some (.symlink target metadata)

def isSymlink : FileNode → Bool
  | .symlink _ _ => true
  | _ => false

instance : Decidable (F.Direct x) :=
  decidable_of_iff
    ((∀ name ∈ x, Plain name) ∧ ∀ y ∈ x.inits, (F.node y).any isSymlink = false) (by
    constructor
    · rintro ⟨hplain, hlinks⟩
      refine ⟨hplain, fun y hy target metadata hlink => ?_⟩
      have hlink' := hlinks y ((List.mem_inits _ _).mpr hy)
      rw [hlink] at hlink'
      cases hlink'
    · intro h
      refine ⟨h.plain, fun y hy => ?_⟩
      have hlink := h.no_link y ((List.mem_inits _ _).mp hy)
      cases hnode : F.node y with
      | none => rfl
      | some n =>
          cases n with
          | symlink target metadata => exact absurd hnode (hlink target metadata)
          | directory _ => rfl
          | regular _ _ => rfl
          | special _ _ => rfl)

theorem walkWith_direct {follow : Path → List Name → Option Path} {todo : List Name} {t : Path}
    (h : F.Direct (dir ++ todo)) (hdir : F.IsDir dir) (ht : F.walkWith follow dir todo = some t) :
    t = dir ++ todo ∧ F.IsDir t := by
  induction todo generalizing dir with
  | nil =>
      obtain rfl := Option.some.inj ht
      exact ⟨(List.append_nil _).symm, hdir⟩
  | cons name rest ih =>
      obtain ⟨hdot, hup⟩ := h.plain name (by simp)
      rw [List.append_cons] at h ⊢
      rw [walkWith, if_neg hdot, if_neg hup] at ht
      have hlink := h.no_link _ (List.prefix_append _ _)
      cases hnode : F.node (dir ++ [name]) with
      | none => simp [hnode] at ht
      | some n =>
          rw [hnode] at ht
          cases n with
          | directory metadata => exact ih h ⟨metadata, hnode⟩ ht
          | symlink target metadata => exact absurd hnode (hlink target metadata)
          | regular contents metadata => cases ht
          | special type metadata => cases ht

/-- `[ -d x ]` for a direct path. -/
theorem Direct.directoryAt_iff (h : F.Direct x) {t : Path} :
    F.directoryAt x = some t ↔ t = x ∧ F.IsDir x := by
  constructor
  · intro ht
    have hx : t = [] ++ x ∧ F.IsDir t := walkWith_direct h F.root ht
    rw [List.nil_append] at hx
    exact ⟨hx.1, hx.1 ▸ hx.2⟩
  · rintro ⟨rfl, hdir⟩
    show F.walk _ [] t = some ([] ++ t)
    exact walk_isDir h.plain hdir

theorem Direct.of_prefix (h : F.Direct y) (hx : x <+: y) : F.Direct x where
  plain name hname := h.plain name (hx.subset hname)
  no_link z hz := h.no_link z (hz.trans hx)

theorem walkWith_append {follow : Path → List Name → Option Path} {n : Nat}
    (hn : F.walk n = F.walkWith follow) (todo : List Name)
    (hfollow : ∀ dir todo, ∃ m, ∀ rest, follow dir (todo ++ rest) =
      (follow dir todo).bind fun mid => F.walk m mid rest) (dir : Path) :
    ∃ m, ∀ rest, F.walkWith follow dir (todo ++ rest) =
      (F.walkWith follow dir todo).bind fun mid => F.walk m mid rest := by
  induction todo generalizing dir with
  | nil => exact ⟨n, fun rest => by rw [hn]; rfl⟩
  | cons name todo ih =>
      simp only [List.cons_append, walkWith]
      split_ifs
      · exact ih dir
      · exact ih (parentDir dir)
      · cases F.node (dir ++ [name]) with
        | none => exact ⟨n, fun _ => rfl⟩
        | some node =>
            cases node with
            | directory metadata => exact ih (dir ++ [name])
            | symlink target metadata =>
                simp only [← List.append_assoc]
                exact hfollow _ _
            | regular contents metadata => exact ⟨n, fun _ => rfl⟩
            | special type metadata => exact ⟨n, fun _ => rfl⟩

/-- A longer path goes on from where a shorter one leads. -/
theorem walk_append (n : Nat) (dir : Path) (todo : List Name) :
    ∃ m, ∀ rest, F.walk n dir (todo ++ rest) =
      (F.walk n dir todo).bind fun mid => F.walk m mid rest := by
  induction n generalizing dir todo with
  | zero => exact walkWith_append (n := 0) rfl todo (fun _ _ => ⟨0, fun _ => rfl⟩) dir
  | succ n ih => exact walkWith_append (n := n + 1) rfl todo ih dir

/-- A path below `dir` starts with a node there. -/
theorem node_of_walk {n : Nat} {rest : List Name} {t : Path} (hplain : Plain name)
    (h : F.walk n dir (name :: rest) = some t) : F.node (dir ++ [name]) ≠ none := by
  intro hnone
  cases n <;> simp [walk, walkWith, hplain.1, hplain.2, hnone] at h

theorem directoryAt_append (x : Path) :
    ∃ m, ∀ rest, F.directoryAt (x ++ rest) = (F.directoryAt x).bind fun mid => F.walk m mid rest :=
  walk_append maxSymlinks [] x

/-! ## What the changes leave -/

theorem isDir_mkdir (hdir : F.IsDir dir) (hfree : F.node (dir ++ [name]) = none) :
    (F.mkdir dir name).IsDir (dir ++ [name]) := by
  refine ⟨⟨0o755, 0, 0⟩, ?_⟩
  rw [mkdir, dif_pos ⟨hdir, hfree⟩]
  exact if_pos rfl

theorem node_mkdir (hdir : F.IsDir dir) (hfree : F.node (dir ++ [name]) = none) (x : Path) :
    (F.mkdir dir name).node x = if x = dir ++ [name] then some newDirectory else F.node x := by
  rw [mkdir, dif_pos ⟨hdir, hfree⟩]

theorem node_graft {tree : Files} (hdir : F.IsDir dir) (x : Path) :
    (F.graft dir tree).node x = if dir <+: x then tree.node (x.drop dir.length) else F.node x := by
  rw [graft, dif_pos hdir]

theorem node_subtree (hdir : F.IsDir dir) (r : Path) : (F.subtree dir).node r = F.node (dir ++ r) := by
  rw [subtree, dif_pos hdir]

/-- What `mkdir -p` makes of a direct path `x`: new directories on the way to it, and if it
gets to the end, the last of them. -/
structure Made (F F' : Files) (x : Path) (result : Option Path) : Prop where
  node : ∀ y, F'.node y = F.node y ∨
    F.node y = none ∧ F'.node y = some newDirectory ∧ y <+: x ∧ (y = x → result = some x)
  result : ∀ t, result = some t → t = x ∧ F'.IsDir x

theorem Made.kept {result : Option Path} (h : Made F F' x result) : Kept F F' := by
  intro y n hn
  rcases h.node y with heq | ⟨hnone, -⟩
  · rw [heq, hn]
  · rw [hnone] at hn
    cases hn

/-- A run of `mkdir -p` that stops where it is. -/
theorem Made.stopped (F : Files) (x : Path) : Made F F x none where
  node _ := Or.inl rfl
  result _ ht := by cases ht

theorem Made.mkdir {path : Path} {rest : List Name} {result : Option Path} (hdir : F.IsDir path)
    (hfree : F.node (path ++ [name]) = none)
    (h : Made (F.mkdir path name) F' (path ++ [name] ++ rest) result)
    (hlast : rest = [] → result = some (path ++ [name])) :
    Made F F' (path ++ [name] ++ rest) result where
  node y := by
    have hy := h.node y
    rw [node_mkdir hdir hfree] at hy
    by_cases hnew : y = path ++ [name]
    · subst hnew
      rw [if_pos rfl] at hy
      refine Or.inr ⟨hfree, hy.elim id fun hmade => hmade.2.1, List.prefix_append _ _, fun hend => ?_⟩
      obtain rfl := List.self_eq_append_right.mp hend
      rw [List.append_nil]
      exact hlast rfl
    · rwa [if_neg hnew] at hy
  result := h.result

theorem Direct.mkdir {path : Path} (h : F.Direct x) (hdir : F.IsDir path)
    (hfree : F.node (path ++ [name]) = none) : (F.mkdir path name).Direct x where
  plain := h.plain
  no_link y hy target metadata := by
    rw [node_mkdir hdir hfree]
    split_ifs with hnew
    · intro hlink
      cases hlink
    · exact h.no_link y hy target metadata

theorem makePath_made {limit : Option Nat} {path : Path} {rest : List Name}
    (h : F.Direct (path ++ rest)) :
    Made F (F.makePath limit path rest).1 (path ++ rest) (F.makePath limit path rest).2 := by
  induction rest generalizing F limit path with
  | nil =>
      rw [List.append_nil] at h ⊢
      exact ⟨fun _ => Or.inl rfl, fun t ht => by
        obtain ⟨rfl, hdir⟩ := h.directoryAt_iff.mp ht
        exact ⟨rfl, hdir⟩⟩
  | cons name rest ih =>
      have hpath := h.of_prefix (List.prefix_append path _)
      rw [List.append_cons] at h ⊢
      rw [makePath]
      by_cases hthere : (F.directoryAt (path ++ [name])).isSome
      · rw [if_pos hthere]
        exact ih h
      · rw [if_neg hthere]
        cases hdirectory : F.directoryAt path with
        | none => exact .stopped F _
        | some dir =>
            obtain ⟨rfl, hdir⟩ := hpath.directoryAt_iff.mp hdirectory
            dsimp only
            by_cases hfree : F.node (dir ++ [name]) = none
            · rw [if_neg (not_not.mpr hfree)]
              by_cases hlimit : limit = some 0
              · rw [if_pos hlimit]
                exact .stopped F _
              · rw [if_neg hlimit]
                refine .mkdir hdir hfree (ih (h.mkdir hdir hfree)) ?_
                rintro rfl
                rw [List.append_nil] at h
                exact (h.mkdir hdir hfree).directoryAt_iff.mpr ⟨rfl, isDir_mkdir hdir hfree⟩
            · rw [if_pos hfree]
              exact .stopped F _

end Files

end Nixgen
end Archinix
