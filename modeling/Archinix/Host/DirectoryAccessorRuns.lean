import Archinix.Host.DirectoryAccessorCaches
import Archinix.Foundation.Sequential
import Mathlib.Data.BitVec

/-!
# Cached and uncached calls

In every state that the threads reach, a cached descriptor is that of the directory its key
leads to, the counter counts the entries of the caches that live, and whatever a thread was
answered is what an accessor without a cache answers.

Only one kind of call is answered otherwise: `openat2` refuses a parent directory whose path
is too long for one call, but not the rest of it below a cached directory; and without
`openat2` a directory on the way is cached although it may not be read.
-/

namespace Archinix
namespace Host

open Foundation Util

namespace SharedCaches

variable {v : TreeView} {A : Type} [DecidableEq A] {accessor : A → DirectoryAccessor}
  {s : SharedCaches A} {a : A} {cache : LRUCache CanonPath Path}

/-- What is cached may be cached, and the counter is right. -/
structure Sound (v : TreeView) (accessor : A → DirectoryAccessor) (s : SharedCaches A) : Prop where
  cached : ∀ a ∈ s.live, ∀ e ∈ (s.dirFdCache a).data, Cached v (accessor a) e.1 e.2
  counted : s.globalDirFdCount = .ofNat 32 s.total

@[simp] theorem setCache_self : (s.setCache a cache).dirFdCache a = cache := Function.update_self ..

theorem setCache_of_ne {b : A} (hb : b ≠ a) : (s.setCache a cache).dirFdCache b = s.dirFdCache b :=
  Function.update_of_ne hb ..

/-! ## Counting -/

theorem total_setCache (cache : LRUCache CanonPath Path) (ha : a ∈ s.live) :
    (s.setCache a cache).total + (s.dirFdCache a).size = s.total + cache.size := by
  have hafter := Finset.add_sum_erase s.live (fun b => ((s.setCache a cache).dirFdCache b).size) ha
  have hbefore := Finset.add_sum_erase s.live (fun b => (s.dirFdCache b).size) ha
  have hothers : ∑ b ∈ s.live.erase a, ((s.setCache a cache).dirFdCache b).size =
      ∑ b ∈ s.live.erase a, (s.dirFdCache b).size := by
    apply Finset.sum_congr rfl
    intro b hb
    rw [setCache_of_ne (Finset.ne_of_mem_erase hb)]
  rw [hothers, setCache_self] at hafter
  change ∑ b ∈ s.live, ((s.setCache a cache).dirFdCache b).size + _ =
    ∑ b ∈ s.live, (s.dirFdCache b).size + _
  omega

omit [DecidableEq A] in
theorem size_le_total (ha : a ∈ s.live) : (s.dirFdCache a).size ≤ s.total :=
  Finset.single_le_sum (f := fun b => (s.dirFdCache b).size) (fun _ _ => Nat.zero_le _) ha

theorem mem_setCache {b : A} {e : CanonPath × Path} (h : e ∈ ((s.setCache a cache).dirFdCache b).data) :
    b = a ∧ e ∈ cache.data ∨ b ≠ a ∧ e ∈ (s.dirFdCache b).data := by
  by_cases hb : b = a
  · subst hb
    rw [setCache_self] at h
    exact .inl ⟨rfl, h⟩
  · rw [setCache_of_ne hb] at h
    exact .inr ⟨hb, h⟩

/-! ## What a step keeps -/

/-- A cache is replaced, and the counter adjusted by the difference of the sizes. -/
theorem Sound.replace (h : s.Sound v accessor) (ha : a ∈ s.live)
    (hcached : ∀ e ∈ cache.data, Cached v (accessor a) e.1 e.2) {count : BitVec 32}
    (hcount : count + .ofNat 32 (s.dirFdCache a).size = s.globalDirFdCount + .ofNat 32 cache.size) :
    Sound v accessor { s.setCache a cache with globalDirFdCount := count } where
  cached b hb e he := by
    rcases mem_setCache he with ⟨rfl, hnew⟩ | ⟨-, hold⟩
    · exact hcached e hnew
    · exact h.cached b hb e hold
  counted := by
    have htotal := congrArg (BitVec.ofNat 32) (total_setCache cache ha)
    rw [BitVec.ofNat_add, BitVec.ofNat_add, ← h.counted, ← hcount] at htotal
    exact (add_right_cancel htotal).symm

theorem Sound.invalidateCache (h : s.Sound v accessor) (ha : a ∈ s.live) :
    (s.invalidateCache a).Sound v accessor := by
  apply h.replace ha
  · simp
  · rw [LRUCache.size_clear, sub_add_cancel]
    simp

theorem Sound.insertIntoDirFdCache (h : s.Sound v accessor) (ha : a ∈ s.live) {key : CanonPath}
    {fd : Path} (hcached : Cached v (accessor a) key fd) :
    (s.insertIntoDirFdCache a key fd).Sound v accessor := by
  apply h.replace ha
  · intro e he
    rcases LRUCache.mem_upsert he with rfl | he
    · exact hcached
    · exact h.cached a ha e he
  · rw [add_assoc, sub_add_cancel]

/-- Lookups find what is cached for one of the paths, and only reorder the cache. -/
theorem firstCached_spec (cache : LRUCache CanonPath Path) (paths : List CanonPath) :
    (firstCached cache paths).2.data.Perm cache.data ∧
      ∀ p fd, (firstCached cache paths).1 = some (p, fd) → p ∈ paths ∧ (p, fd) ∈ cache.data := by
  induction paths with
  | nil => exact ⟨.refl _, by simp [firstCached]⟩
  | cons p rest ih =>
      unfold firstCached
      rcases LRUCache.get_cases cache p with hget | ⟨fd, cache', hget, hmem, hperm⟩
      · rw [hget]
        refine ⟨ih.1, fun p' fd' hfound => ?_⟩
        obtain ⟨hp', hmem⟩ := ih.2 p' fd' hfound
        exact ⟨List.mem_cons_of_mem _ hp', hmem⟩
      · rw [hget]
        refine ⟨hperm, fun p' fd' hfound => ?_⟩
        cases hfound
        exact ⟨List.mem_cons_self, hmem⟩

theorem Sound.reorder (h : s.Sound v accessor) (ha : a ∈ s.live)
    (hperm : cache.data.Perm (s.dirFdCache a).data) : (s.setCache a cache).Sound v accessor := by
  apply h.replace ha
  · exact fun e he => h.cached a ha e (hperm.subset he)
  · rw [LRUCache.size, LRUCache.size, hperm.length_eq]

/-- The operations of a call keep the invariant, and answer what the call relies on. -/
theorem Sound.exec (h : s.Sound v accessor) {o : CacheOp A} {x : (CacheInterface A).Ret o}
    {s' : SharedCaches A} (hpre : (cacheContract v accessor).pre o ())
    (hexec : SharedCaches.exec accessor o s x s') :
    (cacheContract v accessor).post o () x () ∧ s'.Sound v accessor := by
  cases o with
  | globalDirFdCount =>
      cases hexec
      exact ⟨trivial, h⟩
  | registry =>
      cases hexec
      exact ⟨trivial, h⟩
  | erase a =>
      cases hexec
      exact ⟨trivial, h.cached, h.counted⟩
  | evict a =>
      change (x, s') = if a ∈ s.live then _ else _ at hexec
      split at hexec
      · rename_i ha
        cases hexec
        refine ⟨trivial, ?_⟩
        split
        · exact h.invalidateCache ha
        · exact h
      · cases hexec
        exact ⟨trivial, h⟩
  | nearest a parent =>
      change (x, s') = if a ∈ s.live then _ else _ at hexec
      split at hexec
      · rename_i ha
        obtain ⟨hperm, hfound⟩ := firstCached_spec (s.dirFdCache a) parent.inits.reverse
        cases hexec
        refine ⟨fun p fd hit => ?_, h.reorder ha hperm⟩
        obtain ⟨hp, hmem⟩ := hfound p fd hit
        rw [List.mem_reverse, List.mem_inits] at hp
        exact ⟨hp, h.cached a ha _ hmem⟩
      · cases hexec
        refine ⟨fun p fd hit => ?_, h⟩
        cases hit
  | insert a key fd =>
      cases hexec
      refine ⟨trivial, ?_⟩
      split
      · rename_i ha
        exact h.insertIntoDirFdCache ha hpre
      · exact h

/-- So does what happens besides. -/
theorem Sound.outside (h : s.Sound v accessor) {s' : SharedCaches A} (hout : Outside accessor s s') :
    s'.Sound v accessor := by
  cases hout with
  | @make a hlive hregistry =>
      have hothers : ∀ b ∈ s.live, (s.setCache a (.make (accessor a).dirFdCacheSize)).dirFdCache b =
          s.dirFdCache b := by
        intro b hb
        exact setCache_of_ne (by rintro rfl; exact hlive hb)
      constructor
      · intro b hb e he
        rcases mem_setCache he with ⟨-, he⟩ | ⟨hne, he⟩
        · simp at he
        · exact h.cached b ((Finset.mem_insert.1 hb).resolve_left hne) e he
      · show s.globalDirFdCount = .ofNat 32 (∑ b ∈ insert a s.live, _)
        rw [h.counted, Finset.sum_insert hlive, Finset.sum_congr rfl fun b hb => by rw [hothers b hb]]
        simp [setCache, total]
  | @register a hlive => exact ⟨h.cached, h.counted⟩
  | @evict a hlive => exact h.invalidateCache hlive
  | @destroy a hlive =>
      have hinvalid := h.invalidateCache hlive
      constructor
      · exact fun b hb e he => hinvalid.cached b (Finset.mem_of_mem_erase hb) e he
      · have hcount := hinvalid.counted
        have hself : ((s.invalidateCache a).dirFdCache a).size = 0 := by
          simp [SharedCaches.invalidateCache, setCache]
        have hsum := Finset.add_sum_erase s.live
          (fun b => ((s.invalidateCache a).dirFdCache b).size) hlive
        rw [hself, Nat.zero_add] at hsum
        exact hcount.trans (congrArg (BitVec.ofNat 32) hsum.symm)

omit [DecidableEq A] in
theorem Sound.none : (SharedCaches.none : SharedCaches A).Sound v accessor :=
  ⟨by simp [SharedCaches.none], rfl⟩

end SharedCaches

/-! ## Runs -/

section Runs

open Prog DirectoryAccessor

variable {v : TreeView} {A ι : Type} {accessor : A → DirectoryAccessor}
  {calls : ι → List (A × AccessorCall)}

/-- The results of a thread: those of calls on accessors without a cache, as far as that
makes no difference. -/
def Answered (v : TreeView) (accessor : A → DirectoryAccessor) (requests : List (A × AccessorCall))
    (r : Except AccessorException (List (Except AccessorException AccessorAnswer))) : Prop :=
  ∃ answers, r = .ok answers ∧ List.Forall₂ (fun (request : A × AccessorCall) answer =>
    SamePath v (accessor request.1) request.2.path →
      answer = uncached v (accessor request.1) request.2) requests answers

theorem meets_session (requests : List (A × AccessorCall)) (held : Unit) :
    (session v accessor requests).Meets (cacheContract v accessor) False
      (fun r _ => Answered v accessor requests r) held := by
  induction requests generalizing held with
  | nil => exact ⟨[], rfl, .nil⟩
  | cons request rest ih =>
      obtain ⟨a, request⟩ := request
      rw [session, bind_def, meets_bind, meets_attempt]
      apply (gives_call request).mono_at held
      intro answer hanswer held
      rw [continues_ok, bind_def, meets_bind]
      apply (ih held).mono
      intro r held hr
      obtain ⟨answers, rfl, hrest⟩ := hr
      exact ⟨answer :: answers, rfl, .cons hanswer hrest⟩

variable [DecidableEq A] [DecidableEq ι]

theorem cacheContract_upholds : Upholds (fun _ : ι => SharedCaches.exec accessor)
    (SharedCaches.Outside accessor) (cacheContract v accessor) ()
    (fun s _ => s.Sound v accessor) where
  op _ _ _ _ _ _ h hpre hexec := ⟨(), h.exec hpre hexec⟩
  fork _ _ _ _ _ _ _ h _ _ _ := h
  join _ _ _ h _ := ⟨(), trivial, h⟩
  outside _ _ _ h hout := h.outside hout

/-- The invariant of all runs. -/
theorem accessorThreads_kept {m : Machine (CacheInterface A) (SharedCaches A) ι
      (List (Except AccessorException AccessorAnswer))}
    (h : (accessorThreads v accessor calls).Reachable m) :
    ∃ R, m.state.Sound v accessor ∧ Kept (cacheContract v accessor) False ()
      (fun i r _ => Answered v accessor (calls i) r) m.process R := by
  refine machine_meets cacheContract_upholds (fun t => nomatch t) ?_ h
  intro m hinit
  refine ⟨fun _ => (), ?_, ?_⟩
  · rw [hinit.1]
    exact .none
  · constructor
    · intro i
      rw [hinit.2 i]
      exact meets_session (calls i) ()
    · intro i n p hp
      rw [hinit.2 i] at hp
      cases hp
    · exact fun _ _ _ => rfl

end Runs

/-! ## A directory that may be searched but not read -/

namespace SearchedOnly

open DirectoryAccessor

/-- `/a/b/c`; `/a` is not readable, and there is no `openat2`. -/
def view : TreeView where
  fs := .ofNodes [([], .directory 0o755 0), ([str "a"], .directory 0o711 0),
    ([str "a", str "b"], .directory 0o755 0), ([str "a", str "b", str "c"], .directory 0o755 0)]
    (fun _ => ⟨.regular [], 0o644, 0⟩) 0 (by decide)
  kernel := default
  hasOpenat2 := false
  refusesLookup _ _ := none
  refusesOpen p := if p = [str "a"] then some .eacces else none
  globalFdLimit := 128

def accessor (_ : Unit) : DirectoryAccessor := ⟨[], [], 16⟩

def requests : List (Unit × AccessorCall) :=
  [((), .maybeLstat [str "a", str "b", str "c", str "x"]), ((), .maybeLstat [str "a", str "y"])]

/-- The accessor has been made. -/
def made : SharedCaches Unit :=
  { SharedCaches.none.setCache () (.make 16) with live := insert () ∅ }

/-- The threads: a single one. -/
abbrev threads := accessorThreads view accessor fun _ : Unit => requests

theorem reached : ∃ m, threads.Reachable m ∧
    (m.process ()).main = .done (.ok [.ok (.stat none), .ok (.stat none)]) := by
  have hanswers : (Prog.runWith (SharedCaches.perform accessor) (session view accessor requests) made).map
      (fun e => e.1) = some (.ok [.ok (.stat none), .ok (.stat none)]) := rfl
  obtain ⟨⟨r, s'⟩, hrun, hr⟩ := Option.map_eq_some_iff.1 hanswers
  obtain rfl : r = _ := hr
  let process : Unit → Process (CacheInterface Unit) _ := fun _ => .start (session view accessor requests)
  have hinit : threads.Reachable ⟨.none, process⟩ := .of_init ⟨rfl, fun _ => rfl⟩
  have hmake : threads.step ⟨.none, process⟩ .outside ⟨made, process⟩ :=
    ⟨.make _ (by simp [SharedCaches.none]) (by simp [SharedCaches.none]), rfl⟩
  have hfinished := Prog.Steps.reachable (i := ()) (hinit.step hmake) (Prog.ends_of_runWith hrun)
  exact ⟨_, hfinished, by simp⟩

end SearchedOnly

end Host
end Archinix
