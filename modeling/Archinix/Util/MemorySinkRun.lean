import Archinix.Util.MemorySource

/-!
# The memory sink rebuilds the tree it is called for

The calls below an entry of a directory act on that entry alone
(`MemorySink.run_under`), so the calls that describe a tree, made on an empty
sink, leave exactly that tree (`MemorySink.run_calls`).
-/

namespace Archinix
namespace Util

open Foundation

/-! ## Calls below one entry -/

/-- The same call, made inside the entry `name` of a directory. -/
def SinkCall.under (name : Name) : SinkCall → SinkCall
  | .createDirectory path => .createDirectory (name :: path)
  | .closeDirectory path => .closeDirectory (name :: path)
  | .createRegularFile path => .createRegularFile (name :: path)
  | .isExecutable path => .isExecutable (name :: path)
  | .preallocateContents path size => .preallocateContents (name :: path) size
  | .contents path data => .contents (name :: path) data
  | .closeRegularFile path => .closeRegularFile (name :: path)
  | .createSymlink path target => .createSymlink (name :: path) target

namespace Tree

mutual

theorem calls_cons (cut : Bytes → List Bytes) (name : Name) :
    ∀ (t : Tree) (path : CanonPath),
      t.calls cut (name :: path) = (t.calls cut path).map (SinkCall.under name)
  | .regular executable contents, path => by
      cases executable <;> simp [calls, SinkCall.under, Function.comp_def]
  | .symlink target, path => by simp [calls, SinkCall.under]
  | .directory entries, path => by
      simp [calls, SinkCall.under, callsEntries_cons cut name entries path]

theorem callsEntries_cons (cut : Bytes → List Bytes) (name : Name) :
    ∀ (entries : List (Name × Tree)) (path : CanonPath),
      callsEntries cut entries (name :: path) =
        (callsEntries cut entries path).map (SinkCall.under name)
  | [], path => rfl
  | (child, t) :: rest, path => by
      simp only [callsEntries, List.cons_append, List.map_append]
      rw [calls_cons cut name t (path ++ [child]), callsEntries_cons cut name rest path]

end

/-- The directory whose finished entries are `done` and whose entry `name`, once
it exists, comes after all of them. -/
def withChild (done : List (Name × Tree)) (name : Name) : Option Tree → Tree
  | none => .directory done
  | some child => .directory (done ++ [(name, child)])

section WithChild

variable {done : List (Name × Tree)} {name : Name}

theorem find?_done (hdone : ∀ e ∈ done, e.1 < name) :
    done.find? (·.1 = name) = none := by
  rw [List.find?_eq_none]
  intro e he hname
  exact List.lt_irrefl name (by simpa using (of_decide_eq_true hname) ▸ hdone e he)

theorem find?_withChild (hdone : ∀ e ∈ done, e.1 < name) (child : Tree) :
    (done ++ [(name, child)]).find? (·.1 = name) = some (name, child) := by
  simp [List.find?_append, find?_done hdone]

theorem insertEntry_done (hdone : ∀ e ∈ done, e.1 < name) (child : Tree) :
    insertEntry name child done = done ++ [(name, child)] := by
  induction done with
  | nil => rfl
  | cons e rest ih =>
      rw [insertEntry, if_pos (hdone e (by simp)), ih fun e he => hdone e (by simp [he])]
      rfl

/-- A write below `name` leaves the finished entries alone. -/
theorem map_done (hdone : ∀ e ∈ done, e.1 < name) (f : Name × Tree → Tree) :
    done.map (fun e => if e.1 = name then (e.1, f e) else e) = done := by
  conv_rhs => rw [← List.map_id done]
  apply List.map_congr_left
  intro e he
  rw [if_neg, id]
  rintro rfl
  exact List.lt_irrefl _ (hdone e he)

theorem get?_withChild (hdone : ∀ e ∈ done, e.1 < name) (child : Tree) (path : CanonPath) :
    (withChild done name (some child)).get? (name :: path) = child.get? path := by
  simp [withChild, get?, find?_withChild hdone]

theorem openCreate_withChild (hdone : ∀ e ∈ done, e.1 < name) (create child : Tree)
    (path : CanonPath) :
    (withChild done name (some child)).openCreate (name :: path) create =
      (child.openCreate path create).map fun file => withChild done name (some file) := by
  simp only [withChild, openCreate, find?_withChild hdone]
  cases child.openCreate path create with
  | error failure => rfl
  | ok file =>
      simp only [Except.map, replaceEntry, List.map_append,
        map_done hdone fun _ => file, List.map_cons, List.map_nil, if_true]

theorem openCreate_fresh (hdone : ∀ e ∈ done, e.1 < name) (create : Tree) :
    (withChild done name none).openCreate [name] create =
      .ok (withChild done name (some create)) := by
  simp only [withChild, openCreate, find?_done hdone, chain, insertEntry_done hdone]

theorem modifyAt_withChild (hdone : ∀ e ∈ done, e.1 < name) (update : Tree → Tree)
    (child : Option Tree) (path : CanonPath) :
    (withChild done name child).modifyAt update (name :: path) =
      withChild done name (child.map (·.modifyAt update path)) := by
  cases child with
  | none => simp [withChild, modifyAt, map_done hdone fun e => modifyAt update e.2 path]
  | some child => simp [withChild, modifyAt, map_done hdone fun e => modifyAt update e.2 path]

end WithChild

end Tree

namespace MemorySink

variable {displayPrefix : Bytes}

section Under

variable {done : List (Name × Tree)} {name : Name}

theorem openNode_under (hdone : ∀ e ∈ done, e.1 < name) {what : String} {root : Option Tree}
    {path : CanonPath} {create : Tree} {result : Tree × Tree}
    (h : openNode displayPrefix what root path create = .ok result) :
    openNode displayPrefix what (some (Tree.withChild done name root)) (name :: path) create =
      .ok (Tree.withChild done name (some result.1), result.2) := by
  cases root with
  | none =>
      cases path with
      | nil =>
          simp only [openNode, Except.ok.injEq] at h
          subst h
          simp [openNode, Tree.openCreate_fresh hdone, Tree.get?_withChild hdone, Tree.get?,
            Except.mapError, bind, Except.bind]
      | cons => simp [openNode] at h
  | some t =>
      simp only [openNode, Tree.openCreate_withChild hdone] at h ⊢
      cases hopen : t.openCreate path create with
      | error failure => simp [hopen, Except.mapError, bind, Except.bind] at h
      | ok t' =>
          cases hget : t'.get? path with
          | none => simp [hopen, hget, Except.mapError, bind, Except.bind] at h
          | some file =>
              simp only [hopen, hget, Except.mapError, bind, Except.bind, Except.ok.injEq] at h
              subst h
              simp [Except.map, Except.mapError, bind, Except.bind, Tree.get?_withChild hdone, hget]

/-- A call that succeeds on an entry succeeds on the directory that holds it and
changes that entry alone. -/
theorem step_under (hdone : ∀ e ∈ done, e.1 < name) {root root' : Option Tree} {c : SinkCall}
    (h : step displayPrefix root c = .ok root') :
    step displayPrefix (some (Tree.withChild done name root)) (c.under name) =
      .ok (some (Tree.withChild done name root')) := by
  cases c with
  | createDirectory path =>
      obtain ⟨⟨t', file⟩, hopen, hfile⟩ := except_bind_eq_ok h
      simp only [step, SinkCall.under, createDirectory, openNode_under hdone hopen]
      cases file with
      | directory entries => cases hfile; rfl
      | regular | symlink => cases hfile
  | createRegularFile path =>
      obtain ⟨⟨t', file⟩, hopen, hfile⟩ := except_bind_eq_ok h
      simp only [step, SinkCall.under, createRegularFile, openNode_under hdone hopen]
      cases file with
      | regular => cases hfile; rfl
      | directory | symlink => cases hfile
  | createSymlink path target =>
      obtain ⟨⟨t', file⟩, hopen, hfile⟩ := except_bind_eq_ok h
      simp only [step, SinkCall.under, createSymlink, openNode_under hdone hopen]
      cases file with
      | symlink =>
          cases hfile
          exact congrArg (fun t => Except.ok (some t)) (Tree.modifyAt_withChild hdone _ (some t') path)
      | directory | regular => cases hfile
  | isExecutable path =>
      cases h
      exact congrArg (fun t => Except.ok (some t)) (Tree.modifyAt_withChild hdone _ root path)
  | contents path data =>
      cases h
      exact congrArg (fun t => Except.ok (some t)) (Tree.modifyAt_withChild hdone _ root path)
  | preallocateContents | closeDirectory | closeRegularFile => cases h; rfl

/-- So does a whole run of calls. -/
theorem run_under (hdone : ∀ e ∈ done, e.1 < name) {root root' : Option Tree}
    {calls : List SinkCall} (h : run displayPrefix root calls = .ok root') :
    run displayPrefix (some (Tree.withChild done name root)) (calls.map (SinkCall.under name)) =
      .ok (some (Tree.withChild done name root')) := by
  induction calls generalizing root with
  | nil => cases h; rfl
  | cons c rest ih =>
      obtain ⟨mid, hstep, hrest⟩ := except_bind_eq_ok h
      simp only [run, List.map_cons, List.foldlM_cons, step_under hdone hstep]
      exact ih hrest

end Under

/-! ## Whole trees -/

theorem run_append {root mid : Option Tree} {first second : List SinkCall}
    (h : run displayPrefix root first = .ok mid) :
    run displayPrefix root (first ++ second) = run displayPrefix mid second := by
  rw [run, List.foldlM_append]
  exact congrArg (· >>= fun root => run displayPrefix root second) h

variable (displayPrefix) in
/-- Appending the chunks of a file in order appends their concatenation. -/
theorem run_contents (executable : Bool) (written : Bytes) (chunks : List Bytes) :
    run displayPrefix (some (.regular executable written)) (chunks.map (SinkCall.contents [])) =
      .ok (some (.regular executable (written ++ chunks.flatten))) := by
  induction chunks generalizing written with
  | nil => simp [run]; rfl
  | cons data rest ih =>
      have hrest := ih (written ++ data)
      rw [List.append_assoc, ← List.flatten_cons] at hrest
      rw [← hrest]
      rfl

section Calls

variable {cut : Bytes → List Bytes}

/-- Entries in ascending order are appended one after the other. -/
theorem run_callsEntries (done rest : List (Name × Tree))
    (hsorted : ((done ++ rest).map (·.1)).Pairwise (· < ·))
    (hchild : ∀ e ∈ rest, run displayPrefix none (e.2.calls cut []) = .ok (some e.2)) :
    run displayPrefix (some (.directory done)) (Tree.callsEntries cut rest []) =
      .ok (some (.directory (done ++ rest))) := by
  induction rest generalizing done with
  | nil => simp [Tree.callsEntries, run]; rfl
  | cons e rest ih =>
      rcases e with ⟨name, child⟩
      have hdone : ∀ e ∈ done, e.1 < name := by
        intro e he
        rw [List.map_append, List.pairwise_append] at hsorted
        exact hsorted.2.2 e.1 (List.mem_map_of_mem he) name (by simp)
      have hfirst : run displayPrefix (some (Tree.withChild done name none))
          (child.calls cut [name]) = .ok (some (Tree.withChild done name (some child))) := by
        rw [Tree.calls_cons]
        exact run_under hdone (hchild (name, child) (by simp))
      have hrest := ih (done ++ [(name, child)]) (by simpa using hsorted)
        fun e he => hchild e (List.mem_cons_of_mem _ he)
      rw [Tree.callsEntries, List.nil_append, ← List.append_cons] at *
      exact (run_append hfirst).trans hrest

variable (displayPrefix) in
/-- The calls that describe a tree build it. -/
theorem run_calls (hcut : ∀ contents, (cut contents).flatten = contents) {t : Tree}
    (ht : t.Representable) : run displayPrefix none (t.calls cut []) = .ok (some t) := by
  induction ht with
  | regular executable hsize =>
      rename_i contents
      have hcontents := run_contents displayPrefix executable [] (cut contents)
      rw [hcut, List.nil_append] at hcontents
      have hopen : run displayPrefix none ([.createRegularFile []] ++
          (if executable then [.isExecutable []] else []) ++
          [.preallocateContents [] contents.length]) = .ok (some (.regular executable [])) := by
        cases executable <;> rfl
      rw [Tree.calls, List.append_assoc, run_append hopen, run_append hcontents]
      rfl
  | symlink htarget => rfl
  | directory hnames hsorted hchildren ih =>
      have hopen : run displayPrefix none [.createDirectory []] = .ok (some (.directory [])) := rfl
      rw [Tree.calls, List.append_assoc, run_append hopen,
        run_append (run_callsEntries [] _ (by simpa using hsorted) ih)]
      rfl

end Calls

end MemorySink
end Util
end Archinix
