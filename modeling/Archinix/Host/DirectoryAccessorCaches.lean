import Archinix.Host.DirectoryAccessorParent
import Archinix.Util.LRUCache
import Mathlib.Algebra.BigOperators.Group.Finset.Basic

/-!
# The caches of all accessors

Accessors come and go, and any number of threads call them.  They share a counter of all
cached descriptors and a registry, from which the caches of other accessors are emptied
where there are too many.  A thread takes one step for each critical section.
-/

namespace Archinix
namespace Host

open Foundation Util

/-- What a call does with what is shared; `A` are the accessors. -/
inductive CacheOp (A : Type) where
  /-- `globalDirFdCount.load()`. -/
  | globalDirFdCount
  /-- The accessors that `globalDirFdCacheRegistry` points to. -/
  | registry
  /-- `it->lock()`, and what is done with the accessor where there still is one. -/
  | evict (a : A)
  /-- `registry->erase(it)`. -/
  | erase (a : A)
  /-- The loop over `cache->get(p)`. -/
  | nearest (a : A) (parent : CanonPath)
  /-- `insertIntoDirFdCache(key, fd)`. -/
  | insert (a : A) (key : CanonPath) (fd : Path)

@[reducible] def CacheInterface (A : Type) : Interface where
  Op := CacheOp A
  Ret
    | .globalDirFdCount => Nat
    | .registry => List A
    | .evict _ => Bool
    | .erase _ => Unit
    | .nearest .. => Option (CanonPath × Path)
    | .insert .. => Unit
  Task := Empty
  Err := AccessorException

namespace DirectoryAccessor

variable (v : TreeView) {A : Type} (accessor : A → DirectoryAccessor)

/-- The rounds of `maybeEvictFromGlobalCaches` that are left. -/
def evictLoop : List A → Prog (CacheInterface A) Unit
  | [] => pure ()
  | a :: rest =>
      .op .globalDirFdCount fun (count : Nat) =>
        if count < v.globalFdLimit then pure ()
        else
          .op (.evict a) fun (alive : Bool) =>
            if alive then evictLoop rest else .op (.erase a) fun _ => evictLoop rest

def maybeEvictFromGlobalCaches : Prog (CacheInterface A) Unit :=
  .op .globalDirFdCount fun (count : Nat) =>
    if count < v.globalFdLimit then pure ()
    else .op .registry fun registry => evictLoop v registry

/-- The caches as the accessor `a` uses them. -/
def caches (a : A) : Caches (Prog (CacheInterface A)) where
  dirFdCache := (accessor a).dirFdCacheSize ≠ 0
  maybeEvictFromGlobalCaches := maybeEvictFromGlobalCaches v
  nearest parent := Prog.perform (I := CacheInterface A) (.nearest a parent)
  insertIntoDirFdCache key fd := Prog.perform (I := CacheInterface A) (.insert a key fd)

/-- The calls of a thread, one after the other, with what each returns or throws. -/
def session : List (A × AccessorCall) →
    Prog (CacheInterface A) (List (Except AccessorException AccessorAnswer))
  | [] => pure []
  | (a, request) :: rest => do
      let answer ← Prog.attempt (call v (accessor a) (caches v accessor a) request)
      let answers ← session rest
      pure (answer :: answers)

end DirectoryAccessor

/-! ## What is shared -/

/-- The counter, the registry, and the caches of the accessors that live. -/
structure SharedCaches (A : Type) where
  globalDirFdCount : BitVec 32
  registry : List A
  live : Finset A
  dirFdCache : A → LRUCache CanonPath Path

namespace SharedCaches

variable {A : Type} [DecidableEq A] (accessor : A → DirectoryAccessor) (s : SharedCaches A)

/-- The number of all entries. -/
def total : Nat := ∑ a ∈ s.live, (s.dirFdCache a).size

def setCache (a : A) (cache : LRUCache CanonPath Path) : SharedCaches A :=
  { s with dirFdCache := Function.update s.dirFdCache a cache }

/-- Count a cache's entries out, and drop them. -/
def invalidateCache (a : A) : SharedCaches A :=
  { s.setCache a (s.dirFdCache a).clear with
    globalDirFdCount := s.globalDirFdCount - .ofNat 32 (s.dirFdCache a).size }

/-- `insertIntoDirFdCache` of an accessor with a cache. -/
def insertIntoDirFdCache (a : A) (key : CanonPath) (fd : Path) : SharedCaches A :=
  let before := (s.dirFdCache a).size
  let cache := (s.dirFdCache a).upsert key fd
  { s.setCache a cache with
    globalDirFdCount := s.globalDirFdCount + (.ofNat 32 cache.size - .ofNat 32 before) }

/-- The first of some paths that is cached, with the cache that the lookups leave. -/
def firstCached (cache : LRUCache CanonPath Path) :
    List CanonPath → Option (CanonPath × Path) × LRUCache CanonPath Path
  | [] => (none, cache)
  | p :: rest =>
      match cache.get p with
      | (some fd, cache') => (some (p, fd), cache')
      | (none, cache') => firstCached cache' rest

/-- What an operation answers and does.  An accessor lives as long as calls on it go on;
operations on any other do nothing. -/
def perform : (o : CacheOp A) → SharedCaches A → (CacheInterface A).Ret o × SharedCaches A
  | .globalDirFdCount, s => (s.globalDirFdCount.toNat, s)
  | .registry, s => (s.registry, s)
  | .evict a, s =>
      if a ∈ s.live then
        (true, if (accessor a).dirFdCacheSize ≠ 0 then s.invalidateCache a else s)
      else (false, s)
  | .erase a, s => ((), { s with registry := s.registry.erase a })
  | .nearest a parent, s =>
      if a ∈ s.live then
        let (hit, cache) := firstCached (s.dirFdCache a) parent.inits.reverse
        (hit, s.setCache a cache)
      else (none, s)
  | .insert a key fd, s => ((), if a ∈ s.live then s.insertIntoDirFdCache a key fd else s)

def exec : Exec (CacheInterface A) (SharedCaches A) := fun o s x s' => (x, s') = perform accessor o s

/-- What else happens: accessors are made, with or without an entry in the registry, and
destroyed, and caches are emptied by those who are not among the threads. -/
inductive Outside : SharedCaches A → SharedCaches A → Prop
  | make (s : SharedCaches A) {a : A} (hlive : a ∉ s.live) (hregistry : a ∉ s.registry) :
      Outside s { s.setCache a (.make (accessor a).dirFdCacheSize) with live := insert a s.live }
  | register (s : SharedCaches A) {a : A} (hlive : a ∈ s.live) :
      Outside s { s with registry := s.registry.filter (· ∈ s.live) ++ [a] }
  | evict (s : SharedCaches A) {a : A} (hlive : a ∈ s.live) : Outside s (s.invalidateCache a)
  | destroy (s : SharedCaches A) {a : A} (hlive : a ∈ s.live) :
      Outside s { s.invalidateCache a with live := s.live.erase a }

/-- Nothing has been made yet. -/
def none : SharedCaches A := ⟨0, [], ∅, fun _ => .make 0⟩

end SharedCaches

/-- A call starts no tasks. -/
def noTask {A : Type} (t : Empty) : Prog (CacheInterface A) Unit := nomatch t

/-- Threads that call accessors. -/
def accessorThreads (v : TreeView) {A ι : Type} [DecidableEq A] [DecidableEq ι]
    (accessor : A → DirectoryAccessor) (calls : ι → List (A × AccessorCall)) :
    TransitionSystem (Machine (CacheInterface A) (SharedCaches A) ι
      (List (Except AccessorException AccessorAnswer))) (Actor ι) :=
  machine (fun _ => SharedCaches.exec accessor) noTask (SharedCaches.Outside accessor)
    fun m => m.state = SharedCaches.none ∧
      ∀ i, m.process i = .start (DirectoryAccessor.session v accessor (calls i))

/-! ## What a call relies on -/

/-- A descriptor that may be cached for a key: that of the directory the key leads to,
opened for reading where `openat2` opens it. -/
structure Cached (v : TreeView) (a : DirectoryAccessor) (key : CanonPath) (fd : Path) : Prop where
  notRoot : key ≠ []
  leads : v.Leads a.dirFd key fd
  opened : v.hasOpenat2 = true → v.refusesOpen fd = Option.none

/-- Only such descriptors are inserted, and found again. -/
def cacheContract (v : TreeView) {A : Type} (accessor : A → DirectoryAccessor) :
    Contract (CacheInterface A) Unit where
  pre o _ :=
    match o with
    | .insert a key fd => Cached v (accessor a) key fd
    | _ => True
  post o _ :=
    match o with
    | .nearest a parent => fun (hit : Option (CanonPath × Path)) _ =>
        ∀ p fd, hit = some (p, fd) → p <+: parent ∧ Cached v (accessor a) p fd
    | _ => fun _ _ => True
  fork _ _ _ _ := True
  join _ _ := True

section Gives

open Prog

variable {v : TreeView} {A : Type} {accessor : A → DirectoryAccessor}
  {C : Contract (CacheInterface A) Unit} {cond : Prop} {dirFd : Path} {name : Name} {path : CanonPath}

theorem gives_refuseSymlink (errNo : Errno) :
    Gives C cond (refuseSymlink v errNo dirFd name path) (refuseSymlink v errNo dirFd name path) := by
  unfold refuseSymlink
  split
  · apply Gives.bind
    · unfold maybeFstatat
      cases v.lookup dirFd name with
      | ok node => exact gives_pure _
      | error e =>
          dsimp only
          split
          · exact gives_pure _
          · exact gives_throw _
    · intro node _
      cases node with
      | none => exact gives_pure _
      | some node =>
          dsimp only
          split
          · exact gives_throw _
          · exact gives_pure _
  · split
    · exact gives_throw _
    · exact gives_pure _

/-- The loop hands descriptors of directories it has come through to its callback. -/
theorem gives_openComponents {callback : Option (Path → CanonPath → Prog (CacheInterface A) Unit)}
    (hcallback : ∀ cb, callback = some cb → ∀ fd key, key ≠ [] → v.Leads dirFd key fd →
      Gives C cond (cb fd key) (pure ()))
    {parentFd : Option Path} {prev : CanonPath} (hparent : v.Leads dirFd prev (parentFd.getD dirFd))
    (hprev : parentFd ≠ none → prev ≠ []) (rest : List Name) :
    Gives C cond (openComponents v callback dirFd parentFd prev rest)
      (openComponents v none dirFd parentFd prev rest) := by
  induction rest generalizing parentFd prev with
  | nil => exact gives_pure _
  | cons component rest ih =>
      unfold openComponents
      cases hopens : v.openat .path (parentFd.getD dirFd) component with
      | error e => exact (gives_refuseSymlink e).bind fun _ _ => gives_pure _
      | ok fd' =>
          obtain ⟨mode, mtime, hname, rfl⟩ := TreeView.openat_path_eq_ok.1 hopens
          apply Gives.bind
          · unfold handOver
            cases callback with
            | none => exact gives_pure _
            | some cb =>
                cases parentFd with
                | none => exact gives_pure _
                | some fd => exact hcallback cb rfl fd prev (hprev (by simp)) hparent
          · intro _ _
            exact ih (hparent.trans (.single hname)) (by simp)

theorem gives_openFileEnsureBeneathNoSymlinks (flags : OpenFlags) {path : CanonPath}
    {callback : Option (Path → CanonPath → Prog (CacheInterface A) Unit)}
    (hcallback : ∀ cb, callback = some cb → ∀ fd key, key ≠ [] → v.Leads dirFd key fd →
      v.hasOpenat2 = false → Gives C cond (cb fd key) (pure ())) :
    Gives C cond (openFileEnsureBeneathNoSymlinks v flags dirFd path callback)
      (openFileEnsureBeneathNoSymlinks v flags dirFd path none) := by
  unfold openFileEnsureBeneathNoSymlinks
  split
  · cases v.openat2 flags dirFd path with
    | ok fd => exact gives_pure _
    | error e =>
        dsimp only
        split
        · exact gives_throw _
        · exact gives_pure _
  · rename_i hopenat2
    unfold openFileEnsureBeneathNoSymlinksIterative
    apply Gives.bind
    · apply gives_openComponents
      · intro cb hcb fd key hkey hleads
        exact hcallback cb hcb fd key hkey hleads (by simpa using hopenat2)
      · exact .here _
      · simp
    · intro components _
      cases components with
      | error e => exact gives_pure _
      | ok parentFd =>
          dsimp only
          cases v.openat flags parentFd (path.getLast?.getD []) with
          | error e => exact (gives_refuseSymlink e).bind fun _ _ => gives_pure _
          | ok res => exact gives_pure _

theorem gives_fixUp {α : Type} {a : DirectoryAccessor} {p : Prog (CacheInterface A) α}
    {r : Except AccessorException α} (h : Gives C cond p r) (anchor : CanonPath) (fmt : String) :
    Gives C cond (a.fixUp anchor fmt p) (a.fixUp anchor fmt r) := by
  apply h.tryCatch
  intro e _
  cases e with
  | symlinkNotAllowed path e => exact gives_throw _
  | sysError errNo e => exact gives_throw _
  | other e => exact gives_throw _

end Gives

namespace DirectoryAccessor

open Prog

variable {v : TreeView} {A : Type} {accessor : A → DirectoryAccessor} {cond : Prop} {a : A}
  {fd : Path} {path : CanonPath}

theorem gives_insert {key : CanonPath} (h : Cached v (accessor a) key fd) :
    Gives (cacheContract v accessor) cond ((caches v accessor a).insertIntoDirFdCache key fd)
      (pure ()) := fun _ => ⟨h, fun _ _ _ _ => rfl⟩

theorem gives_evictLoop (registry : List A) :
    Gives (cacheContract v accessor) cond (evictLoop v registry) (pure ()) := by
  induction registry with
  | nil => exact gives_pure _
  | cons b rest ih =>
      intro held
      refine ⟨trivial, fun (count : Nat) held _ => ?_⟩
      show (if count < v.globalFdLimit then _ else _ : Prog (CacheInterface A) Unit).Meets _ _ _ _
      split
      · exact fun _ => rfl
      · refine ⟨trivial, fun (alive : Bool) held _ => ?_⟩
        show (if alive = true then _ else _ : Prog (CacheInterface A) Unit).Meets _ _ _ _
        split
        · exact ih held
        · exact ⟨trivial, fun _ held _ => ih held⟩

theorem gives_maybeEvictFromGlobalCaches :
    Gives (cacheContract v accessor) cond (maybeEvictFromGlobalCaches v) (pure ()) := by
  intro held
  refine ⟨trivial, fun (count : Nat) held _ => ?_⟩
  show (if count < v.globalFdLimit then _ else _ : Prog (CacheInterface A) Unit).Meets _ _ _ _
  split
  · exact fun _ => rfl
  · exact ⟨trivial, fun registry held _ => gives_evictLoop registry held⟩

/-- Every descriptor on the way is cached for its path from the root of the accessor. -/
theorem gives_openParentFrom {anchor : CanonPath} (h : v.Leads (accessor a).dirFd anchor fd)
    (relPath : CanonPath) :
    Gives (cacheContract v accessor) cond
      (openParentFrom v (accessor a) (caches v accessor a) fd anchor relPath)
      (openParentFrom v (accessor a) noCaches fd anchor relPath) := by
  unfold openParentFrom
  apply gives_fixUp
  apply Gives.bind
  · apply gives_openFileEnsureBeneathNoSymlinks
    intro cb hcb fd' key hkey hleads hopenat2
    obtain ⟨base, hbase, rfl⟩ := Option.map_eq_some_iff.1 hcb
    unfold makeDirFdCallback at hbase
    split at hbase
    · cases hbase
      apply gives_insert
      exact { notRoot := by simp [hkey], leads := h.trans hleads, opened := by simp [hopenat2] }
    · cases hbase
  · intro res _
    cases res with
    | ok fd => exact gives_pure _
    | error e => exact gives_pure _

/-- Opening the parent directory does not depend on what is cached: its path fits into one
call of `openat2`, or else it may be opened for reading. -/
def SameParent (v : TreeView) (a : DirectoryAccessor) (parent : CanonPath) : Prop :=
  if v.hasOpenat2 then (CanonPath.rel parent).length < pathMax
  else ∀ fd, v.Leads a.dirFd parent fd → v.refusesOpen fd = none

theorem SameParent.fits {a : DirectoryAccessor} {parent : CanonPath} (h : SameParent v a parent) :
    v.Fits parent := by
  intro hopenat2
  rwa [SameParent, if_pos hopenat2] at h

theorem SameParent.reads {a : DirectoryAccessor} {parent : CanonPath} (h : SameParent v a parent)
    (hcached : Cached v a parent fd) : v.refusesOpen fd = none := by
  by_cases hopenat2 : v.hasOpenat2 = true
  · exact hcached.opened hopenat2
  · rw [SameParent, if_neg hopenat2] at h
    exact h fd hcached.leads

/-- The accessor has no cache, or does not need it for the path, or caching makes no
difference. -/
def SamePath (v : TreeView) (a : DirectoryAccessor) (path : CanonPath) : Prop :=
  a.dirFdCacheSize = 0 ∨ path.dropLast = [] ∨ SameParent v a path.dropLast

theorem openParent_noCaches {a : DirectoryAccessor} (hparent : path.dropLast ≠ []) :
    openParent v a noCaches path = openParentFrom v a noCaches a.dirFd [] path.dropLast := by
  rw [openParent, if_neg hparent]
  rfl

/-- Where caching makes a difference, an accessor without a cache does not get at the parent
directory. -/
theorem openParent_fails {a : DirectoryAccessor} (h : ¬ SamePath v a path) (opened : Path × Option Path) :
    openParent v a noCaches path ≠ .ok (.ok opened) := by
  intro hopens
  apply h
  by_cases hparent : path.dropLast = []
  · exact .inr (.inl hparent)
  · right
    right
    rw [openParent_noCaches hparent] at hopens
    obtain ⟨fd, -, hleads, hreads, hfits⟩ := leads_of_openParentFrom hparent hopens
    unfold SameParent
    split
    · rename_i hopenat2
      exact hfits hopenat2
    · intro fd' hleads'
      rw [hleads'.eq_append, ← hleads.eq_append]
      exact hreads

/-- What `openParent` hands on: what it would without a cache, if that is the same, and
never a descriptor that must not be cached. -/
def ParentOpened (v : TreeView) (a : DirectoryAccessor) (path : CanonPath)
    (r : Except AccessorException (Except Errno (Path × Option Path))) : Prop :=
  (SamePath v a path → r = openParent v a noCaches path) ∧
  ∀ fd owned, r = .ok (.ok (fd, some owned)) → Cached v a path.dropLast owned

theorem Cached.of_openParentFrom {a : DirectoryAccessor} {anchor rest : CanonPath} {owned : Path}
    (h : v.Leads a.dirFd anchor fd) (hrest : rest ≠ []) {fd' : Path}
    (hopens : openParentFrom v a noCaches fd anchor rest = .ok (.ok (fd', some owned))) :
    Cached v a (anchor ++ rest) owned := by
  obtain ⟨_, hfd, hleads, hreads, -⟩ := leads_of_openParentFrom hrest hopens
  cases hfd
  exact { notRoot := by simp [hrest], leads := h.trans hleads, opened := fun _ => hreads }

theorem meets_openParent (held : Unit) :
    (openParent v (accessor a) (caches v accessor a) path).Meets (cacheContract v accessor) False
      (fun r _ => ParentOpened v (accessor a) path r) held := by
  by_cases hparent : path.dropLast = []
  · rw [openParent, if_pos hparent]
    constructor
    · intro _
      rw [openParent, if_pos hparent]
      rfl
    · intro fd owned hr
      cases hr
  have huncached := openParent_noCaches (v := v) (a := accessor a) hparent
  -- without a hit the path is opened from the root
  have hroot : ∀ held, (openParentFrom v (accessor a) (caches v accessor a) (accessor a).dirFd []
      path.dropLast).Meets (cacheContract v accessor) False
      (fun r _ => ParentOpened v (accessor a) path r) held := by
    intro held
    apply (gives_openParentFrom (.here _) path.dropLast).ends held
    intro held
    exact ⟨fun _ => huncached.symm, fun fd owned hopens => Cached.of_openParentFrom (.here _) hparent hopens⟩
  rw [openParent, if_neg hparent, bind_def, meets_bind]
  apply gives_maybeEvictFromGlobalCaches.ends held
  intro held
  show (if (caches v accessor a).dirFdCache = true then _ else _ :
    Prog (CacheInterface A) _).Meets _ _ _ _
  split
  · rename_i hcache
    refine ⟨trivial, fun (hit : Option (CanonPath × Path)) held hpost => ?_⟩
    cases hit with
    | none => exact hroot held
    | some found =>
        obtain ⟨p, fd⟩ := found
        obtain ⟨⟨rest, hrest⟩, hcached⟩ := hpost p fd rfl
        show (if p = path.dropLast then _ else _ : Prog (CacheInterface A) _).Meets _ _ _ _
        split
        · rename_i hp
          rw [hp] at hcached
          constructor
          · rintro (hsize | hnil | hsame)
            · simp [caches, hsize] at hcache
            · exact absurd hnil hparent
            · rw [huncached]
              exact (openParentFrom_of_leads hcached.leads hparent hsame.fits
                (hsame.reads hcached)).symm
          · intro fd' owned hr
            cases hr
            exact hcached
        · rename_i hp
          have hne : rest ≠ [] := by
            rintro rfl
            exact hp (by rw [← hrest, List.append_nil])
          have hdrop : path.dropLast.drop p.length = rest := by rw [← hrest, List.drop_left]
          rw [hdrop]
          apply (gives_openParentFrom hcached.leads rest).ends held
          intro held
          constructor
          · rintro (hsize | hnil | hsame)
            · simp [caches, hsize] at hcache
            · exact absurd hnil hparent
            · have hfits := hsame.fits
              rw [← hrest] at hfits
              rw [huncached, ← hrest, openParentFrom_append hcached.leads hne hfits]
          · intro fd' owned hopens
            rw [← hrest]
            exact Cached.of_openParentFrom hcached.leads hne hopens
  · exact hroot held

/-! ## Calls -/

theorem gives_openParentAndUpsert (path : CanonPath) :
    Gives (cacheContract v accessor) (SamePath v (accessor a) path)
      (openParentAndUpsert v (accessor a) (caches v accessor a) path)
      (openParentAndUpsert v (accessor a) noCaches path) := by
  intro held
  unfold openParentAndUpsert
  rw [bind_def, meets_bind]
  apply (meets_openParent held).mono
  intro r held hr
  obtain ⟨hsame, hcached⟩ := hr
  cases r with
  | error e =>
      intro hc
      rw [← hsame hc]
      rfl
  | ok opened =>
      cases opened with
      | error errNo =>
          show (if errNo = .enoent ∨ errNo = .enotdir then _ else _ :
            Prog (CacheInterface A) _).Meets _ _ _ _
          split
          all_goals
            rename_i herr
            intro hc
            rw [← hsame hc]
          · exact (if_pos herr).symm
          · exact (if_neg herr).symm
      | ok opened =>
          obtain ⟨fd, owning⟩ := opened
          have hupsert : Gives (cacheContract v accessor) True
              (upsertParent (caches v accessor a) path.dropLast owning) (pure ()) := by
            unfold upsertParent
            cases owning with
            | none => exact gives_pure _
            | some owned =>
                dsimp only
                split
                · exact gives_insert (hcached fd owned rfl)
                · exact gives_pure _
          show (Prog.bind (upsertParent (caches v accessor a) path.dropLast owning) _).Meets _ _ _ _
          rw [meets_bind]
          apply hupsert.ends held
          intro held hc
          rw [← hsame hc]
          cases owning <;> rfl

theorem gives_openExistingParent (path : CanonPath) :
    Gives (cacheContract v accessor) (SamePath v (accessor a) path)
      (openExistingParent v (accessor a) (caches v accessor a) path)
      (openExistingParent v (accessor a) noCaches path) := by
  apply (gives_openParentAndUpsert path).bind
  intro fd _
  cases fd with
  | none => exact gives_throw _
  | some fd => exact gives_pure _

theorem gives_openInParent (flags : OpenFlags) (path : CanonPath) :
    Gives (cacheContract v accessor) (SamePath v (accessor a) path)
      (openInParent v (accessor a) (caches v accessor a) flags path)
      (openInParent v (accessor a) noCaches flags path) := by
  apply (gives_openExistingParent path).bind
  intro fd _
  apply gives_fixUp
  apply gives_openFileEnsureBeneathNoSymlinks
  simp

theorem gives_maybeLstat (path : CanonPath) :
    Gives (cacheContract v accessor) (SamePath v (accessor a) path)
      (maybeLstat v (accessor a) (caches v accessor a) path)
      (maybeLstat v (accessor a) noCaches path) := by
  unfold maybeLstat
  split
  · exact gives_pure _
  · apply (gives_openParentAndUpsert path).bind
    intro fd _
    cases fd with
    | none => exact gives_pure _
    | some fd =>
        dsimp only
        cases v.lookup fd (path.getLast?.getD []) with
        | ok node => exact gives_pure _
        | error e =>
            dsimp only
            split
            · exact gives_pure _
            · exact gives_throw _

theorem gives_readFile (path : CanonPath) :
    Gives (cacheContract v accessor) (SamePath v (accessor a) path)
      (readFile v (accessor a) (caches v accessor a) path)
      (readFile v (accessor a) noCaches path) := by
  unfold readFile
  split
  · exact gives_throw _
  · apply (gives_openInParent .file path).bind
    intro fd _
    cases fd with
    | error e =>
        dsimp only
        split
        · exact gives_throw _
        · exact gives_throw _
    | ok fd =>
        dsimp only
        split
        · split
          · split
            · exact gives_pure _
            · exact gives_throw _
          · exact gives_throw _
        · exact gives_throw _

theorem gives_openSubdirectory (path : CanonPath) :
    Gives (cacheContract v accessor) (SamePath v (accessor a) path)
      (openSubdirectory v (accessor a) (caches v accessor a) path)
      (openSubdirectory v (accessor a) noCaches path) := by
  simp only [openSubdirectory]
  split
  · cases v.openForReading (accessor a).dirFd with
    | ok fd => exact gives_pure _
    | error e => exact gives_throw _
  · apply (gives_openInParent .directory path).bind
    intro fd _
    cases fd with
    | ok fd => exact gives_pure _
    | error e =>
        dsimp only
        split
        · exact gives_throw _
        · exact gives_throw _

theorem gives_readLink (path : CanonPath) :
    Gives (cacheContract v accessor) (SamePath v (accessor a) path)
      (readLink v (accessor a) (caches v accessor a) path)
      (readLink v (accessor a) noCaches path) := by
  simp only [readLink]
  apply gives_fixUp
  split
  · exact gives_throw _
  · apply (gives_openExistingParent path).bind
    intro fd _
    apply Gives.tryCatch
    · unfold readLinkAt
      cases v.readlinkat fd (path.getLast?.getD []) with
      | ok target => exact gives_pure _
      | error e => exact gives_throw _
    · intro e _
      cases e with
      | sysError errNo e =>
          dsimp only
          split
          · exact gives_throw _
          · exact gives_throw _
      | symlinkNotAllowed path e => exact gives_throw _
      | other e => exact gives_throw _

/-- A call ends as it would without a cache, if that is the same. -/
theorem gives_call (request : AccessorCall) :
    Gives (cacheContract v accessor) (SamePath v (accessor a) request.path)
      (call v (accessor a) (caches v accessor a) request) (uncached v (accessor a) request) := by
  cases request with
  | maybeLstat path => exact (gives_maybeLstat path).bind fun _ _ => gives_pure _
  | readFile path => exact (gives_readFile path).bind fun _ _ => gives_pure _
  | readDirectory path =>
      exact (gives_fixUp ((gives_openSubdirectory path).bind fun _ _ => gives_pure _) _ _).bind
        fun _ _ => gives_pure _
  | readLink path => exact (gives_readLink path).bind fun _ _ => gives_pure _
  | readSubdirectory dirPath =>
      exact ((gives_openSubdirectory dirPath).bind fun _ _ => gives_pure _).bind
        fun _ _ => gives_pure _

end DirectoryAccessor

end Host
end Archinix
