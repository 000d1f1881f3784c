import Archinix.Host.FileSystem

/-!
# Path resolution

How the system walks a path that nobody has resolved before: `.`, `..` and empty
components, and symlinks, which are followed.
-/

namespace Archinix
namespace Host

open Util

namespace FileSystem

variable (fs : FileSystem)

/-- Walk on from the directory `dir`.  What is left to walk from a symlink on is
handed to `follow`. -/
def walkWith (follow : Path → List Name → Except Errno Path) (dir : Path) :
    List Name → Except Errno Path
  | [] => .ok dir
  | name :: rest =>
      if name = [] ∨ name = str "." then walkWith follow dir rest
      else if name = str ".." then walkWith follow (parentDir dir) rest
      else
        match fs.node (dir ++ [name]) with
        | some (.directory _ _) => walkWith follow (dir ++ [name]) rest
        | some (.leaf i) =>
            match (fs.inode i).kind with
            | .symlink target =>
                follow (if target.head? = some 47 then [] else dir) (target.splitOn 47 ++ rest)
            | _ => if rest = [] then .ok (dir ++ [name]) else .error .enotdir
        | none => .error .enoent

/-- The same through at most so many symlinks. -/
def walk : (links : Nat) → (dir : Path) → List Name → Except Errno Path
  | 0 => fs.walkWith fun _ _ => .error .eloop
  | links + 1 => fs.walkWith (walk links)

/-- `MAXSYMLINKS`. -/
def maxSymlinks : Nat := 40

/-- Where an absolute path leads. -/
def resolve (p : Path) : Except Errno Path := fs.walk maxSymlinks [] p

/-- The node a call on `p` is about if it follows a symlink in the last
component. -/
def followed (p : Path) : Except Errno Path :=
  match (fs.inodeAt p).map fun i => (fs.inode i).kind with
  | some (.symlink _) => fs.resolve p
  | _ => .ok p

/-- The directory an absolute path leads to, as `open(O_DIRECTORY)` finds it. -/
def resolveDirectory (p : Path) : Except Errno Path := do
  let dir ← fs.resolve p
  if fs.IsDir dir then .ok dir else .error .enotdir

variable {fs} {fs' : FileSystem}

theorem resolveDirectory_eq_ok {p dir : Path} :
    fs.resolveDirectory p = .ok dir ↔ fs.resolve p = .ok dir ∧ fs.IsDir dir := by
  unfold resolveDirectory
  rcases fs.resolve p with e | d
  · simp [bind, Except.bind]
  · by_cases hdir : fs.IsDir d
    · simp only [bind, Except.bind, if_pos hdir, Except.ok.injEq]
      constructor
      · rintro rfl
        exact ⟨rfl, hdir⟩
      · exact fun h => h.1
    · simp only [bind, Except.bind, if_neg hdir, Except.ok.injEq, reduceCtorEq, false_iff]
      rintro ⟨rfl, hd⟩
      exact hdir hd

/-- A walk that a file system with fewer nodes completes leads to the same place
in one with more. -/
theorem walkWith_of_fewer {follow follow' : Path → List Name → Except Errno Path}
    (hfollow : ∀ dir rest d, follow' dir rest = .ok d → follow dir rest = .ok d)
    (hdirectory : ∀ q, fs'.IsDir q → fs.IsDir q)
    (hleaf : ∀ q i, fs'.node q = some (.leaf i) → fs.node q = some (.leaf i))
    (hinode : fs'.inode = fs.inode) {todo : List Name} {dir d : Path}
    (h : fs'.walkWith follow' dir todo = .ok d) : fs.walkWith follow dir todo = .ok d := by
  induction todo generalizing dir with
  | nil => exact h
  | cons name rest ih =>
      unfold walkWith at h ⊢
      split
      · rename_i hdot
        rw [if_pos hdot] at h
        exact ih h
      · rename_i hdot
        rw [if_neg hdot] at h
        split
        · rename_i hup
          rw [if_pos hup] at h
          exact ih h
        · rename_i hup
          rw [if_neg hup] at h
          rcases hnode : fs'.node (dir ++ [name]) with - | ⟨mode, mtime⟩ | i
          · rw [hnode] at h
            cases h
          · obtain ⟨mode', mtime', hsame⟩ := hdirectory _ ⟨mode, mtime, hnode⟩
            rw [hnode] at h
            rw [hsame]
            exact ih h
          · rw [hleaf _ i hnode]
            rw [hnode, hinode] at h
            dsimp only at h ⊢
            split
            · rename_i target hkind
              rw [hkind] at h
              exact hfollow _ _ _ h
            · rename_i hkind
              split at h
              · rename_i target hlink
                exact absurd hlink (hkind target)
              · exact h

theorem walk_of_fewer (hdirectory : ∀ q, fs'.IsDir q → fs.IsDir q)
    (hleaf : ∀ q i, fs'.node q = some (.leaf i) → fs.node q = some (.leaf i))
    (hinode : fs'.inode = fs.inode) {links : Nat} {todo : List Name} {dir d : Path}
    (h : fs'.walk links dir todo = .ok d) : fs.walk links dir todo = .ok d := by
  induction links generalizing dir todo d with
  | zero => exact walkWith_of_fewer (fun _ _ _ hd => hd) hdirectory hleaf hinode h
  | succ links ih =>
      have hfollow : ∀ dir rest d, fs'.walk links dir rest = .ok d → fs.walk links dir rest = .ok d :=
        fun _ _ _ hd => ih hd
      exact walkWith_of_fewer hfollow hdirectory hleaf hinode h

theorem resolveDirectory_of_fewer (hdirectory : ∀ q, fs'.IsDir q → fs.IsDir q)
    (hleaf : ∀ q i, fs'.node q = some (.leaf i) → fs.node q = some (.leaf i))
    (hinode : fs'.inode = fs.inode) {p d : Path} (h : fs'.resolveDirectory p = .ok d) :
    fs.resolveDirectory p = .ok d := by
  rw [resolveDirectory_eq_ok] at h ⊢
  exact ⟨walk_of_fewer hdirectory hleaf hinode h.1, hdirectory d h.2⟩

end FileSystem

end Host
end Archinix
