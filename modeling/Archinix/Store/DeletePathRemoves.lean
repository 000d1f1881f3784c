import Archinix.Store.DeletePathCounting

/-!
# What deleting a path removes

The history of a deletion from any file system with no one else at work on it: the
calls it makes, the files it unlinks, the account it keeps of them, and what it
leaves when a call fails.  Each part of the recursion says the same of the events it
adds (`Part`, `Accounts`), and parts follow one another.
-/

namespace Archinix
namespace Store
namespace DeletePath

open Foundation Util Host

variable {env : Environment} {config : LocalStoreConfig} {deep : Prop} {w w' w'' : World}
  {name : Path → Path} {location path : Path} {es es' : List Event} {d d' d'' : Deletion}

/-! ## Single calls -/

theorem wpHistory_sys {c : Call} {err : Errno → Exception}
    {Q : Except Exception c.Val → World → List Event → Prop}
    (h : ∀ x fs, Outcome env.faults env.umask w.fs c x fs →
      Q (Thrown err x) { w with fs := fs } [⟨.sys c, w, x⟩]) :
    (sys c err).wpHistory (exec env config) deep Q w :=
  fun x _ ⟨fs, hout, hw⟩ => hw ▸ h x fs hout

theorem wpHistory_trySys {c : Call}
    {Q : Except Exception (Except Errno c.Val) → World → List Event → Prop}
    (h : ∀ x fs, Outcome env.faults env.umask w.fs c x fs →
      Q (.ok x) { w with fs := fs } [⟨.sys c, w, x⟩]) :
    (trySys c).wpHistory (exec env config) deep Q w :=
  fun x _ ⟨fs, hout, hw⟩ => hw ▸ h x fs hout

theorem wpHistory_checkInterrupt {Q : Except Exception Unit → World → List Event → Prop}
    (hok : Q (.ok ()) w [⟨.checkInterrupt, w, false⟩])
    (hint : Q (.error .interrupted) w [⟨.checkInterrupt, w, true⟩]) :
    checkInterrupt.wpHistory (exec env config) deep Q w := by
  rintro x _ ⟨-, rfl⟩
  cases x with
  | false => exact hok
  | true => exact hint

/-! ## Histories one after the other -/

@[simp] theorem unlinked_nil : unlinked [] = [] := rfl

@[simp] theorem freed_nil : freed [] = 0 := rfl

@[simp] theorem firstRefusal_nil : firstRefusal name [] = none := rfl

theorem unlinked_append : unlinked (es ++ es') = unlinked es ++ unlinked es' := by
  simp [unlinked]

theorem freed_append : freed (es ++ es') = freed es + freed es' := by
  simp [freed]

theorem firstRefusal_append :
    firstRefusal name (es ++ es') = (firstRefusal name es).or (firstRefusal name es') := by
  simp only [firstRefusal, List.findSome?_append]
  cases es.findSome? refusal <;> rfl

theorem Refused.mono {p : Path} (h : Refused env es p) (hsub : es ⊆ es') : Refused env es' p := by
  obtain ⟨ev, hev, hrest⟩ := h
  exact ⟨ev, hsub hev, hrest⟩

/-- The call is no `unlinkat`. -/
def Quiet (e : Event) : Prop := refusal e = none ∧ removal e = none

theorem unlinked_quiet (h : ∀ e ∈ es, Quiet e) : unlinked es = [] := by
  simp only [unlinked, List.map_eq_nil_iff, List.filterMap_eq_nil_iff]
  exact fun e he => (h e he).2

theorem freed_quiet (h : ∀ e ∈ es, Quiet e) : freed es = 0 := by
  have hnil : es.filterMap removal = [] :=
    List.filterMap_eq_nil_iff.mpr fun e he => (h e he).2
  simp [freed, hnil]

theorem firstRefusal_quiet (h : ∀ e ∈ es, Quiet e) : firstRefusal name es = none := by
  simp only [firstRefusal, Option.map_eq_none_iff, List.findSome?_eq_none_iff]
  exact fun e he => (h e he).1

theorem Descends.up {entry : Name} {e : Event} (h : Descends (location ++ [entry]) e) :
    Descends location e := by
  have hup : ∀ {q}, location ++ [entry] <+: q → location <+: q :=
    fun hq => (List.prefix_append _ _).trans hq
  rcases e with ⟨o, w, x⟩
  cases o with
  | sys c =>
      cases c with
      | lstat q => exact hup h
      | unlink q => exact hup h
      | openPath q => exact ⟨hup h.1, h.2⟩
      | readdir q => exact ⟨hup h.1, h.2⟩
      | chmod q mode => exact ⟨hup h.1, h.2⟩
      | chmodProc q mode => exact ⟨hup h.1, h.2⟩
      | fchmodat q mode => exact ⟨hup h.1, h.2⟩
      | rmdir q => exact ⟨hup h.1, h.2⟩
      | _ => exact h
  | checkInterrupt => trivial
  | _ => exact h

/-- A part of a run below `location`: what it removes, and the calls it makes. -/
structure Part (location : Path) (w w' : World) (es : List Event) : Prop where
  db : w'.db = w.db
  pruned : Pruned w.fs w'.fs location
  calls : ∀ e ∈ es, Descends location e
  nodup : (unlinked es).Nodup
  mem_unlinked : ∀ q, q ∈ unlinked es ↔
    location <+: q ∧ (∃ i, w.fs.node q = some (.leaf i)) ∧ w'.fs.node q = none

namespace Part

/-- A part that unlinks nothing. -/
theorem quiet (hdb : w'.db = w.db) (hpruned : Pruned w.fs w'.fs location)
    (hshape : ∀ q, w'.fs.shape q = w.fs.shape q) (hcalls : ∀ e ∈ es, Descends location e)
    (hquiet : unlinked es = []) : Part location w w' es where
  db := hdb
  pruned := hpruned
  calls := hcalls
  nodup := by
    rw [hquiet]
    exact List.nodup_nil
  mem_unlinked q := by
    rw [hquiet]
    refine ⟨fun h => absurd h (List.not_mem_nil), fun ⟨_, ⟨i, hi⟩, hgone⟩ => ?_⟩
    have hsame := hshape q
    rw [FileSystem.shape_eq_none.mpr hgone, eq_comm, FileSystem.shape_eq_none, hi] at hsame
    cases hsame

/-- Nothing has happened yet. -/
theorem refl (location : Path) (w : World) : Part location w w [] :=
  quiet rfl (.refl _ _) (fun _ => rfl) (by simp) rfl

/-- A call that only looks. -/
theorem look {e : Event} (hcall : Descends location e) (hquiet : Quiet e) :
    Part location w w [e] :=
  quiet rfl (.refl _ _) (fun _ => rfl) (by simpa using hcall)
    (unlinked_quiet (by simpa using hquiet))

theorem trans (h : Part location w w' es) (h' : Part location w' w'' es') :
    Part location w w'' (es ++ es') where
  db := h'.db.trans h.db
  pruned := h.pruned.trans h'.pruned
  calls e he := (List.mem_append.mp he).elim (h.calls e) (h'.calls e)
  nodup := by
    rw [unlinked_append]
    refine List.Nodup.append h.nodup h'.nodup fun q hq hq' => ?_
    -- what the first part has unlinked is not there for the second
    obtain ⟨-, -, hgone⟩ := (h.mem_unlinked q).mp hq
    obtain ⟨-, ⟨i, hi⟩, -⟩ := (h'.mem_unlinked q).mp hq'
    rw [hgone] at hi
    cases hi
  mem_unlinked q := by
    rw [unlinked_append, List.mem_append, h.mem_unlinked, h'.mem_unlinked]
    constructor
    · rintro (⟨hq, hleaf, hgone⟩ | ⟨hq, ⟨i, hi⟩, hgone⟩)
      · exact ⟨hq, hleaf, h'.pruned.node_eq_none hgone⟩
      · exact ⟨hq, ⟨i, (h.pruned.goneOrSame q).leaf hi⟩, hgone⟩
    · rintro ⟨hq, ⟨i, hi⟩, hgone⟩
      rcases (h.pruned.goneOrSame q).of_leaf hi with hgone' | hsame
      · exact Or.inl ⟨hq, ⟨i, hi⟩, hgone'⟩
      · exact Or.inr ⟨hq, ⟨i, hsame⟩, hgone⟩

/-- A part below an entry is a part below the directory. -/
theorem ofChild (hne : location ≠ []) {entry : Name} (h : Part (location ++ [entry]) w w' es) :
    Part location w w' es where
  db := h.db
  pruned := h.pruned.ofChild hne
  calls e he := (h.calls e he).up
  nodup := h.nodup
  mem_unlinked q := by
    rw [h.mem_unlinked]
    refine ⟨fun ⟨hq, hrest⟩ => ⟨(List.prefix_append _ _).trans hq, hrest⟩, fun ⟨hq, hrest⟩ => ?_⟩
    refine ⟨?_, hrest⟩
    -- nothing else has gone
    by_contra hchild
    obtain ⟨⟨i, hi⟩, hgone⟩ := hrest
    have hsame := h.pruned.untimed_of_not_prefix hchild
    rw [FileSystem.untimed_eq_leaf.mpr hi |> hsame.trans |> FileSystem.untimed_eq_leaf.mp] at hgone
    cases hgone

end Part

/-- The account kept in a part of a run: the first `unlinkat` to fail, after what had
failed before, and if none did the sizes of what has gone. -/
structure Accounts (name : Path → Path) (d d' : Deletion) (es : List Event) : Prop where
  ex : d'.ex = d.ex.or (firstRefusal name es)
  bytesFreed : firstRefusal name es = none → d'.bytesFreed = d.bytesFreed + freed es

namespace Accounts

theorem quiet (h : ∀ e ∈ es, Quiet e) (d : Deletion) : Accounts name d d es :=
  ⟨by simp [firstRefusal_quiet h], fun _ => by simp [freed_quiet h]⟩

theorem trans (h : Accounts name d d' es) (h' : Accounts name d' d'' es') :
    Accounts name d d'' (es ++ es') where
  ex := by rw [h'.ex, h.ex, firstRefusal_append, Option.or_assoc]
  bytesFreed hnone := by
    rw [firstRefusal_append, Option.or_eq_none_iff] at hnone
    rw [h'.bytesFreed hnone.2, h.bytesFreed hnone.1, freed_append, add_assoc]

end Accounts

/-- What is left at or below `location` is there because it, or something below it,
could not be unlinked. -/
def Leaves (env : Environment) (location : Path) (w : World) (es : List Event) : Prop :=
  ∀ q, location <+: q → w.fs.node q ≠ none → ∃ q', q <+: q' ∧ Refused env es q'

theorem Leaves.later (h : Leaves env location w es)
    (hpruned : ∀ q, w.fs.node q = none → w'.fs.node q = none) (hsub : es ⊆ es') :
    Leaves env location w' es' := by
  intro q hq hnode
  obtain ⟨q', hq', hrefused⟩ := h q hq fun hnone => hnode (hpruned q hnone)
  exact ⟨q', hq', hrefused.mono hsub⟩

/-- The postcondition of `_deletePath` below `location`. -/
structure Swept (env : Environment) (name : Path → Path) (location : Path) (w : World)
    (d : Deletion) (r : Except Exception Deletion) (w' : World) (es : List Event) : Prop where
  part : Part location w w' es
  ok : ∀ d', r = .ok d' → Accounts name d d' es ∧ Leaves env location w' es
  error : ∀ e, r = .error e → ∃ ev ∈ es, Failure ev

end DeletePath
end Store
end Archinix
