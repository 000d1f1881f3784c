import Archinix.Store.ImportVerified

/-!
# A store that is shared

Any number of processes import paths, from dumps or from streams of other stores, and collect
garbage, each as often as it likes and going on after an exception.  For each path an import
is under way or not (`Sharing`); what is done meanwhile to other paths leaves it alone
(`does_other`).

Every such run keeps that a registered path has its tree, as long as nobody removes what is
registered or being put in its place (`Users.inv_of_reachable`).
-/

namespace Archinix
namespace Store
namespace Adding

open Foundation Util Exporting

/-! ## The contract -/

namespace Stage

/-- What is found settled needs no more care. -/
def forget : Stage → Stage
  | settled => free none
  | s => s

theorem forget_of_ne {s : Stage} (h : s ≠ settled) : s.forget = s := by
  cases s <;> first | rfl | exact absurd rfl h

theorem forget_forget (s : Stage) : s.forget.forget = s.forget := by
  cases s <;> rfl

theorem forget_ne_collecting {s : Stage} (h : s ≠ collecting) : s.forget ≠ collecting := by
  cases s <;> simp_all [forget]

theorem forget_released {s : Stage} (h : s ≠ collecting) : s.released.forget = free none := by
  cases s <;> simp_all [forget, released]

end Stage

section Contract

variable [Sha256] (path : StorePath) (met : Set Tree)

/-- Calls that are no part of an import of the path: about other paths, or of a collector. -/
def Other : Request → Prop
  | .restorePath .temp source => ¬ Expects met source fun _ => True
  | .restorePath (.realPath p) _ => p ≠ path
  | .isValidPath p => p ≠ path
  | .lockPath p => p ≠ path
  | .unlockPath p _ => p ≠ path
  | .moveFile p => p ≠ path
  | .canonicalise p _ => p ≠ path
  | .optimisePath p => p ≠ path
  | .sync p => p ≠ path
  | .registerValidPath info => info.path ≠ path ∧ info.references = []
  | .remove _ => True
  | .lockGC => True
  | .unlockGC => True
  | .findRoots => True
  | .invalidatePathChecked _ => True
  | .dirGrantsDefaultAcl => False
  | .createTempDirInStore => False
  | .deleteTempDir => False
  | .finishHash _ => False

/-- Such calls are made while no import of the path is under way. -/
def Beside (r : Request) (s : Stage) : Prop := (∃ temp, s = .free temp) ∧ Other path met r

/-- The contract of a process that may import the path, again and again, among others. -/
def Sharing : Contract Requests (Option Stage) where
  pre r held := ∃ s, held = some s ∧ s ≠ .collecting ∧ (Allowed path met r s ∨ Beside path met r s)
  post r held x held' := Answer r x ∧ ∃ s, held = some s ∧
    ((Beside path met r s ∧ held' = some (.free none)) ∨
      (¬ Beside path met r s ∧ ∃ s', After met r s x s' ∧ held' = some s'.forget))
  fork _ _ _ _ := False
  join held held' := held' = held

variable {path met}

/-- An import asks for nothing that is beside it. -/
theorem not_beside {r : Request} {s : Stage} (h : Allowed path met r s) (hs : s ≠ .collecting) :
    ¬ Beside path met r s := by
  rintro ⟨⟨temp, rfl⟩, hother⟩
  cases r with
  | restorePath place source =>
      obtain ⟨hmet, ⟨rfl, -⟩ | ⟨-, temp, hcleared⟩⟩ := h
      · exact hother fun t rest ht hheight hst => ⟨hmet t rest ht hheight hst, trivial⟩
      · cases hcleared
  | isValidPath p => exact hother h.1
  | lockPath p => exact hother h.1
  | unlockPath p deletion => exact hother h.1
  | remove p => rcases h with ⟨-, temp, hunregistered⟩ | hcollecting <;> contradiction
  | moveFile p =>
      obtain ⟨-, t, hcleared⟩ := h
      cases hcleared
  | canonicalise p recursive => rcases h with ⟨-, t, hmoved | hplaced⟩ <;> contradiction
  | optimisePath p =>
      obtain ⟨-, t, hplaced⟩ := h
      cases hplaced
  | sync p =>
      obtain ⟨-, t, hplaced⟩ := h
      cases hplaced
  | registerValidPath info =>
      obtain ⟨t, hplaced, -⟩ := h
      cases hplaced
  | lockGC => exact hs h
  | unlockGC => exact hs h
  | findRoots => exact hs h
  | invalidatePathChecked p => exact hs h
  | dirGrantsDefaultAcl => exact hother
  | createTempDirInStore => exact hother
  | deleteTempDir => exact hother
  | finishHash writes => exact hother

/-- A settled import may be asked for what a new one may, and knows as much afterwards. -/
theorem allowed_forget {r : Request} {s : Stage} (h : Allowed path met r s) (hs : s ≠ .collecting) :
    Allowed path met r s.forget ∧ ∀ x u, After met r s.forget x u →
      ∃ s', After met r s x s' ∧ u.forget = s'.forget := by
  by_cases hsettled : s = .settled
  · subst hsettled
    cases r with
    | dirGrantsDefaultAcl => exact ⟨trivial, fun x u hu => ⟨.settled, rfl, by rw [show u = .free none from hu]; rfl⟩⟩
    | finishHash writes => exact ⟨trivial, fun x u hu => ⟨.settled, ⟨hu.1, rfl⟩, by rw [hu.2]; rfl⟩⟩
    | deleteTempDir => exact ⟨Stage.noConfusion, fun x u hu => ⟨.settled, rfl, by rw [show u = .free none from hu]; rfl⟩⟩
    | unlockPath p deletion =>
        exact ⟨⟨h.1, Stage.noConfusion⟩, fun x u hu => ⟨.settled, rfl, by rw [show u = .free none from hu]; rfl⟩⟩
    | isValidPath p =>
        refine ⟨⟨h.1, Stage.noConfusion⟩, fun x u hu => ?_⟩
        rcases x with e | valid
        · exact ⟨.settled, rfl, by rw [show u = .free none from hu]; rfl⟩
        · refine ⟨.settled, by cases valid <;> rfl, ?_⟩
          rw [show u = Stage.checked valid (.free none) from hu]
          cases valid <;> rfl
    | createTempDirInStore => exact absurd h (by simp [Allowed])
    | restorePath place source => exact absurd h (by simp [Allowed])
    | lockPath p => exact absurd h (by simp [Allowed])
    | remove p => exact absurd h (by simp [Allowed])
    | moveFile p => exact absurd h (by simp [Allowed])
    | canonicalise p recursive => exact absurd h (by simp [Allowed])
    | optimisePath p => exact absurd h (by simp [Allowed])
    | sync p => exact absurd h (by simp [Allowed])
    | registerValidPath info => exact absurd h (by simp [Allowed])
    | lockGC => exact absurd h (by simp [Allowed])
    | unlockGC => exact absurd h (by simp [Allowed])
    | findRoots => exact absurd h (by simp [Allowed])
    | invalidatePathChecked p => exact absurd h (by simp [Allowed])
  · rw [Stage.forget_of_ne hsettled]
    exact ⟨h, fun x u hu => ⟨u, hu, rfl⟩⟩

/-- What is said of an import alone holds of an import among other things. -/
theorem sharing_of_importing {α : Type} {p : Prog Requests α} {s : Stage}
    {Q : Except Exception α → Option Stage → Prop} (hs : s ≠ .collecting)
    (h : p.Meets (Importing path met) True Q (some s)) :
    p.Meets (Sharing path met) True
      (fun x held => ∃ u, u ≠ .collecting ∧ Q x (some u) ∧ held = some u.forget) (some s.forget) := by
  induction p generalizing s with
  | done x => exact ⟨s, hs, h, rfl⟩
  | op r k ih =>
      obtain ⟨⟨_, ⟨⟩, hallowed⟩, hrest⟩ := h
      obtain ⟨hforget, hafter⟩ := allowed_forget hallowed hs
      have hne := Stage.forget_ne_collecting hs
      refine ⟨⟨_, rfl, hne, Or.inl hforget⟩, ?_⟩
      rintro x _ ⟨-, _, ⟨⟩, ⟨hbeside, -⟩ | ⟨-, u, hu, rfl⟩⟩
      · exact absurd hbeside (not_beside hforget hne)
      · obtain ⟨s', hs', hsame⟩ := hafter x u hu
        rw [hsame]
        exact ih x (importing_after hs hallowed hs') (hrest x _ ⟨s, s', rfl, rfl, hs'⟩)
  | fork t => exact isEmptyElim t
  | join k ih =>
      rintro _ rfl
      exact ih hs (h _ rfl)
  | spin => trivial

end Contract

/-! ## What processes do -/

section Programs

variable [Sha256] {settings : Settings} {reads : ReadSizes} {depth : Nat} {path p : StorePath}
  {met : Set Tree} {α β : Type}

/-- No import of the path is under way. -/
def Idle (held : Option Stage) : Prop := ∃ temp, held = some (.free temp)

/-- Between imports of the path the program does what is beside them, or an import from its
beginning to its end. -/
def Shares (path : StorePath) (met : Set Tree) (p : Prog Requests α) : Prop :=
  ∀ temp, p.Meets (Sharing path met) True (fun _ held => Idle held) (some (.free temp))

namespace Shares

theorem done (x : Except Exception α) : Shares path met (.done x : Prog Requests α) :=
  fun temp => ⟨temp, rfl⟩

theorem bind {p : Prog Requests α} {f : α → Prog Requests β} (h : Shares path met p)
    (hf : ∀ a, Shares path met (f a)) : Shares path met (p >>= f) := by
  refine fun temp => Prog.meets_bind.mpr ((h temp).mono ?_)
  rintro (e | a) _ ⟨temp', rfl⟩
  · exact ⟨temp', rfl⟩
  · exact hf a temp'

theorem attempt {p : Prog Requests α} (h : Shares path met p) : Shares path met p.attempt :=
  fun temp => Prog.meets_attempt.mpr ((h temp).mono fun _ _ hidle => hidle)

theorem finally' {p : Prog Requests α} {cleanup : Prog Requests Unit} (h : Shares path met p)
    (hcleanup : Shares path met cleanup) : Shares path met (p.finally' cleanup) :=
  h.attempt.bind fun ended => hcleanup.attempt.bind fun _ => done ended

theorem forM {l : List β} {f : β → Prog Requests PUnit} (hf : ∀ b ∈ l, Shares path met (f b)) :
    Shares path met (l.forM f) := by
  induction l with
  | nil => exact done _
  | cons b l ih =>
      exact (hf b List.mem_cons_self).bind fun _ => ih fun c hc => hf c (List.mem_cons_of_mem b hc)

theorem compute (r : Except Error α) : Shares path met (compute r) := done _

/-- A call that is beside the import. -/
theorem beside {r : Request} (h : Other path met r) : Shares path met (call r) := by
  intro temp
  have hbeside : Beside path met r (.free temp) := ⟨⟨temp, rfl⟩, h⟩
  refine ⟨⟨_, rfl, Stage.noConfusion, Or.inr hbeside⟩, ?_⟩
  rintro x _ ⟨-, _, ⟨⟩, ⟨-, rfl⟩ | ⟨hnot, -⟩⟩
  · exact ⟨none, rfl⟩
  · exact absurd hbeside hnot

/-- A call with which no import of the path begins. -/
theorem allowed {r : Request} (h : ∀ temp, Allowed path met r (.free temp))
    (hafter : ∀ temp x s', After met r (.free temp) x s' → ∃ temp', s' = .free temp') :
    Shares path met (call r) := by
  refine fun temp => ⟨⟨_, rfl, Stage.noConfusion, Or.inl (h temp)⟩, ?_⟩
  rintro x _ ⟨-, _, ⟨⟩, ⟨-, rfl⟩ | ⟨-, s', hs', rfl⟩⟩
  · exact ⟨none, rfl⟩
  · obtain ⟨temp', rfl⟩ := hafter temp x s' hs'
    exact ⟨temp', rfl⟩

theorem dirGrantsDefaultAcl : Shares path met (call .dirGrantsDefaultAcl) :=
  allowed (fun _ => trivial) fun temp _ _ h => ⟨temp, h⟩

theorem createTempDirInStore : Shares path met (call .createTempDirInStore) :=
  allowed (fun temp => ⟨temp, rfl⟩) fun _ _ _ h => ⟨none, h⟩

theorem deleteTempDir : Shares path met (call .deleteTempDir) :=
  allowed (fun _ => Stage.noConfusion) fun _ _ _ h => ⟨none, h⟩

theorem remove (p : StorePath) : Shares path met (call (.remove p)) := beside trivial

theorem deletePath (depth : Nat) (p : StorePath) : Shares path met (deletePath depth p) := by
  induction depth with
  | zero => exact fun _ => trivial
  | succ depth ih =>
      refine (remove p).bind fun more => ?_
      cases more with
      | true => exact ih
      | false => exact done _

/-! ### Another path -/

theorem unlessValid (hp : p ≠ path) {body : Prog Requests Unit} (hbody : Shares path met body) :
    Shares path met (unlessValid p body) := by
  have hvalid : Shares path met (call (.isValidPath p)) := beside hp
  refine hvalid.bind fun valid => ?_
  cases valid with
  | true => exact done _
  | false => exact hbody

theorem locked (hp : p ≠ path) {body : Prog Requests Unit} (hbody : Shares path met body) :
    Shares path met (locked p body) := by
  have hlock : Shares path met (call (.lockPath p)) := beside hp
  have hunlock : ∀ deletion, Shares path met (call (.unlockPath p deletion)) :=
    fun _ => beside hp
  exact hlock.bind fun _ => hbody.attempt.bind fun ended =>
    (hunlock ended.isOk).attempt.bind fun _ => done ended

theorem finishPath (hp : p ≠ path) (canonicalRestore : Bool) :
    Shares path met (finishPath settings p canonicalRestore) := by
  have hcanonicalise : Shares path met (call (.canonicalise p !canonicalRestore)) :=
    beside hp
  have hoptimise : Shares path met (call (.optimisePath p)) := beside hp
  have hsync : Shares path met (call (.sync p)) := beside hp
  refine hcanonicalise.bind fun _ => hoptimise.bind fun _ => ?_
  split
  · exact hsync
  · exact done _

theorem place (hp : p ≠ path) {name : Bytes} {canonicalRestore : Bool} {hash : HashResult}
    (hpath : settings.makeContentAddressedPath name hash.hash = .ok p) :
    Shares path met (FromDump.place settings depth name canonicalRestore hash p) := by
  have hmove : Shares path met (call (.moveFile p)) := beside hp
  refine (deletePath depth p).bind fun _ => hmove.bind fun _ =>
    (finishPath hp canonicalRestore).bind fun _ => ?_
  rw [makeFromCA, hpath]
  exact beside ⟨hp, rfl⟩

theorem placeFrom {info : ValidPathInfo} {source : Bytes} (hp : info.path ≠ path)
    (hreferences : info.references = []) : Shares path met (placeFrom settings depth info source) := by
  have hrestore : Shares path met (call (.restorePath (.realPath info.path) source)) :=
    beside hp
  refine (deletePath depth info.path).bind fun _ => dirGrantsDefaultAcl.bind fun acl =>
    hrestore.bind fun read => ?_
  show Shares path met (if _ then _ else if _ then _ else _)
  split
  · exact done _
  · split
    · exact done _
    · exact (finishPath hp !acl).bind fun _ => beside ⟨hp, hreferences⟩

theorem addToStore_of_ne {info : ValidPathInfo} {source : Bytes} (hp : info.path ≠ path)
    (hreferences : info.references = []) : Shares path met (addToStore settings depth info source) :=
  unlessValid hp (locked hp (unlessValid hp (placeFrom hp hreferences)))

/-! ### The path itself -/

/-- A call of an import. -/
theorem call_of_allowed {r : Request} {f : r.Val → Prog Requests β} {s : Stage}
    {Q : Except Exception β → Option Stage → Prop} (hs : s ≠ .collecting)
    (hpre : Allowed path met r s)
    (hok : ∀ v s', Answer r (.ok v) → After met r s (.ok v) s' →
      (f v).Meets (Sharing path met) True Q (some s'.forget))
    (herror : ∀ e s', After met r s (.error e) s' → Q (.error e) (some s'.forget)) :
    (call r >>= f).Meets (Sharing path met) True Q (some s) := by
  refine meets_call ⟨s, rfl, hs, Or.inl hpre⟩ ?_ ?_
  · rintro v _ ⟨hanswer, _, ⟨⟩, ⟨hbeside, -⟩ | ⟨-, s', hafter, rfl⟩⟩
    · exact absurd hbeside (not_beside hpre hs)
    · exact hok v s' hanswer hafter
  · rintro e _ ⟨-, _, ⟨⟩, ⟨hbeside, -⟩ | ⟨-, s', hafter, rfl⟩⟩
    · exact absurd hbeside (not_beside hpre hs)
    · exact herror e s' hafter

/-- With the lock the path is imported, and without it the import is over. -/
theorem locked_own {body : Prog Requests Unit} {temp : Option Tree}
    (hbody : body.Meets (Importing path met) True (Leaves (· = .settled)) (some (.locked temp))) :
    (Adding.locked path body).Meets (Sharing path met) True (fun _ held => Idle held)
      (some (.free temp)) := by
  refine call_of_allowed Stage.noConfusion ⟨rfl, temp, rfl⟩ ?_ ?_
  · rintro _ _ - rfl
    refine Prog.meets_bind.mpr (Prog.meets_attempt.mpr ?_)
    refine (sharing_of_importing Stage.noConfusion hbody).mono ?_
    rintro ended _ ⟨u, hu, -, rfl⟩
    have hne := Stage.forget_ne_collecting hu
    refine Prog.meets_bind.mpr (Prog.meets_attempt.mpr ?_)
    refine ⟨⟨_, rfl, hne, Or.inl ⟨rfl, hne⟩⟩, ?_⟩
    rintro x _ ⟨-, _, ⟨⟩, ⟨hbeside, -⟩ | ⟨-, s', hs', rfl⟩⟩
    · exact absurd hbeside (not_beside ⟨rfl, hne⟩ hne)
    · obtain rfl : s' = u.forget.released := hs'
      exact ⟨none, by rw [Stage.forget_released hne]⟩
  · rintro e _ rfl
    exact ⟨temp, rfl⟩

theorem unlessValid_own {body : Prog Requests Unit} {temp : Option Tree}
    (hbody : body.Meets (Sharing path met) True (fun _ held => Idle held) (some (.free temp))) :
    (Adding.unlessValid path body).Meets (Sharing path met) True (fun _ held => Idle held)
      (some (.free temp)) := by
  refine call_of_allowed Stage.noConfusion ⟨rfl, Stage.noConfusion⟩ ?_ ?_
  · rintro valid _ - rfl
    cases valid with
    | true => exact ⟨none, rfl⟩
    | false => exact hbody
  · rintro e _ rfl
    exact ⟨temp, rfl⟩

theorem addToStore_self {info : ValidPathInfo} {source : Bytes} (hreferences : info.references = [])
    (hsource : Expects met source fun _ => True) :
    Shares info.path met (addToStore settings depth info source) :=
  fun _ => unlessValid_own (locked_own (unlessValid_stages (by simp) (placeFrom_stages hreferences hsource)))

/-- Importing what is in the temporary directory. -/
theorem restored_self {name : Bytes} {canonicalRestore : Bool} {t : Tree}
    (hpath : settings.makeContentAddressedPath name (hashString t.nar) = .ok path) :
    (Adding.unlessValid path (Adding.locked path (Adding.unlessValid path
      (FromDump.place settings depth name canonicalRestore (hashSink t.nar) path)))).Meets
      (Sharing path met) True (fun _ held => Idle held) (some (.free (some t))) :=
  unlessValid_own (locked_own (unlessValid_stages (by simp) (place_stages hpath)))

/-- Imports of one archive are of the path or not. -/
theorem addToStore {info : ValidPathInfo} {source : Bytes} (hreferences : info.references = [])
    (hsource : info.path = path → Expects met source fun _ => True) :
    Shares path met (addToStore settings depth info source) := by
  by_cases hp : info.path = path
  · have hexpects := hsource hp
    subst hp
    exact addToStore_self hreferences hexpects
  · exact addToStore_of_ne hp hreferences

/-! ### Whole operations -/

theorem importRounds (rounds : Nat) (source : Bytes)
    (hmet : ∀ t : Tree, Receives settings reads source t → settings.makeContentAddressedPath path.name
      (hashString t.nar) = .ok path → t ∈ met) :
    Shares path met (importRounds settings reads depth rounds source) := by
  induction rounds generalizing source with
  | zero => exact done _
  | succ rounds ih =>
      rcases hnext : nextRecord settings reads source with e | ⟨r, rest⟩
      · simp only [Adding.importRounds, hnext]
        exact done _
      · simp only [Adding.importRounds, hnext]
        rcases r with - | ⟨info, saved⟩
        · exact done _
        · have hverified := (nextRecord_eq_ok hnext).2 info saved rfl
          have hadd : Shares path met (Adding.addToStore settings depth info saved) := by
            refine addToStore hverified.references ?_
            rintro rfl t rest ht hheight hsaved
            obtain rfl := hverified.nar_eq ht hsaved
            exact ⟨hmet t (.here hnext) hverified.path, trivial⟩
          exact hadd.bind fun _ => (ih rest fun t ht => hmet t (.later hnext ht)).bind fun _ => done _

theorem importVerified (source : Bytes)
    (hmet : ∀ t : Tree, Receives settings reads source t → settings.makeContentAddressedPath path.name
      (hashString t.nar) = .ok path → t ∈ met) :
    Shares path met (importVerified settings reads depth source) :=
  importRounds source.length source hmet

/-- What follows the restored archive of a tree. -/
theorem ofArchive {writes : List Bytes} {name : Bytes} {canonicalRestore : Bool} {t : Tree}
    {temp : Option Tree} (hwrites : writes.flatten = t.nar)
    (htemp : settings.makeContentAddressedPath name (hashString t.nar) = .ok path → temp = some t) :
    (do
      let dumpHash ← call (.finishHash writes)
      let dstPath ← Adding.compute (settings.makeContentAddressedPath name dumpHash.hash)
      Adding.unlessValid dstPath (Adding.locked dstPath (Adding.unlessValid dstPath
        (FromDump.place settings depth name canonicalRestore dumpHash dstPath)))
      pure dstPath : Prog Requests StorePath).Meets (Sharing path met) True
        (fun _ held => Idle held) (some (.free temp)) := by
  refine call_of_allowed Stage.noConfusion trivial ?_ ?_
  · rintro dumpHash _ - ⟨hhash, rfl⟩
    obtain rfl : dumpHash = hashSink t.nar := by rw [hhash _ rfl, hwrites]
    refine meets_compute (fun dstPath hdst => ?_) fun e => ⟨temp, rfl⟩
    have hbody : (Adding.unlessValid dstPath (Adding.locked dstPath (Adding.unlessValid dstPath
        (FromDump.place settings depth name canonicalRestore (hashSink t.nar) dstPath)))).Meets
        (Sharing path met) True (fun _ held => Idle held) (some (.free temp)) := by
      by_cases hp : dstPath = path
      · subst hp
        obtain rfl := htemp hdst
        exact restored_self hdst
      · exact unlessValid hp (locked hp (unlessValid hp (place hp hdst))) temp
    refine Prog.meets_bind.mpr (hbody.mono ?_)
    rintro (e | _) _ hidle
    · exact hidle
    · exact hidle
  · rintro e _ ⟨-, rfl⟩
    exact ⟨temp, rfl⟩

theorem addToStoreFromDump (source name : Bytes)
    (hmet : ∀ (t : Tree) rest, t.Representable → t.height ≤ narMaxDepth → source = t.nar ++ rest →
      settings.makeContentAddressedPath path.name (hashString t.nar) = .ok path → t ∈ met) :
    Shares path met (addToStoreFromDump settings depth source name) := by
  -- the path is that of the archive, if it is the one the process may import
  have hmem : ∀ (t : Tree) rest, t.Representable → t.height ≤ narMaxDepth → source = t.nar ++ rest →
      settings.makeContentAddressedPath name (hashString t.nar) = .ok path → t ∈ met := by
    intro t rest ht hheight hsource hpath
    refine hmet t rest ht hheight hsource ?_
    rw [settings.name_of_makeStorePath hpath, hpath]
  have hrestored : ∀ canonicalRestore, Shares path met
      (FromDump.restored settings depth source name canonicalRestore) := by
    intro canonicalRestore temp
    by_cases hexpects : Expects met source fun _ => True
    · refine call_of_allowed Stage.noConfusion ⟨fun t rest ht hheight hst =>
        (hexpects t rest ht hheight hst).1, Or.inl ⟨rfl, temp, rfl⟩⟩ ?_ ?_
      · rintro ⟨writes, rest⟩ _ - ⟨t, ⟨-, -, -, hwrites, -⟩, rfl⟩
        exact ofArchive hwrites fun _ => rfl
      · rintro e _ rfl
        exact ⟨none, rfl⟩
    · have hbeside : Beside path met (.restorePath .temp source) (.free temp) :=
        ⟨⟨temp, rfl⟩, hexpects⟩
      refine meets_call ⟨_, rfl, Stage.noConfusion, Or.inr hbeside⟩ ?_ ?_
      · rintro ⟨writes, rest⟩ _ ⟨⟨t, ht, hheight, hwrites, hst⟩, _, ⟨⟩, ⟨-, rfl⟩ | ⟨hnot, -⟩⟩
        · refine ofArchive hwrites fun hpath => absurd ?_ hexpects
          -- the source begins with no other archive
          intro u rest' hu huheight hst'
          have hparse := parseIntoMemory_nar [] .whole ht hheight rest
          rw [← hst, hst', parseIntoMemory_nar [] .whole hu huheight rest'] at hparse
          simp only [Except.ok.injEq, Prod.mk.injEq, Option.some.injEq] at hparse
          obtain ⟨rfl, -⟩ := hparse
          exact ⟨hmem u rest ht hheight hst hpath, trivial⟩
        · exact absurd hbeside hnot
      · rintro e _ ⟨-, _, ⟨⟩, ⟨-, rfl⟩ | ⟨hnot, -⟩⟩
        · exact ⟨none, rfl⟩
        · exact absurd hbeside hnot
  exact dirGrantsDefaultAcl.bind fun acl => createTempDirInStore.bind fun _ =>
    (hrestored !acl).finally' deleteTempDir

theorem collectPath (roots : List StorePath) (p : StorePath) :
    Shares path met (collectPath settings depth roots p) := by
  have hinvalidate : Shares path met (call (.invalidatePathChecked p)) := beside trivial
  unfold Adding.collectPath
  split
  · exact done _
  · refine (hinvalidate.bind fun _ => deletePath depth p).attempt.bind fun ended => ?_
    split
    · exact done _
    · split
      · exact done _
      · exact done _
    · exact done _

theorem collectGarbage (paths : List StorePath) :
    Shares path met (collectGarbage settings depth paths) := by
  have hlock : Shares path met (call .lockGC) := beside trivial
  have hroots : Shares path met (call .findRoots) := beside trivial
  have hunlock : Shares path met (call .unlockGC) := beside trivial
  unfold Adding.collectGarbage
  split
  · exact done _
  · exact hlock.bind fun _ => (hroots.bind fun roots => forM fun p _ => collectPath roots p).finally' hunlock

end Shares

end Programs

/-! ## What the calls do to other paths -/

section Beside

variable [Sha256] {settings : Settings} {ι : Type} [DecidableEq ι] {path : StorePath}
  {met : Set Tree} {w w' : World ι} {i : ι} {r : Request} {x : Except Exception r.Val}

omit [Sha256] in
/-- A registration without references leaves the rows of other paths and `Refs` alone. -/
theorem registerValidPath_elsewhere {cfg : StoreDirConfig} {db db' : Database} {now : Int}
    {info : ValidPathInfo} {contentAddressed : Bool} (hreferences : info.references = [])
    (h : db.registerValidPath cfg now info contentAddressed = .ok db') :
    db'.refs = db.refs ∧ ∀ p, p ≠ info.path → db'.queryPathInfo p = db.queryPathInfo p := by
  rw [Database.registerValidPath, hreferences] at h
  split at h
  · obtain rfl := Except.ok.inj h
    refine ⟨rfl, fun p hp => ?_⟩
    have hmap : ∀ rows : List ValidPathRow, (rows.map info.update).find? (·.path = p) =
        rows.find? (·.path = p) := by
      intro rows
      induction rows with
      | nil => rfl
      | cons row rows ih =>
          rw [List.map_cons, List.find?_cons, List.find?_cons, info.update_path, ih]
          by_cases hrow : row.path = p
          · have hne : row.path ≠ info.path := fun hsame => hp (hrow.symm.trans hsame)
            rw [ValidPathInfo.update, if_neg hne]
          · simp [hrow]
    exact hmap db.validPaths
  · rw [Database.addValidPath] at h
    split at h
    · cases h
    · split at h
      · cases h
      · obtain rfl := Except.ok.inj h
        exact ⟨rfl, fun p hp => (Database.queryPathInfo_withRow p).trans (if_neg hp)⟩

/-- Nothing about the path has changed that others know. -/
structure Untouched (path : StorePath) (i : ι) (w w' : World ι) : Prop where
  row : w'.db.queryPathInfo path = w.db.queryPathInfo path
  contents : w'.contents path = w.contents path
  holder : w'.holder path = w.holder path
  placing : w'.placing path = w.placing path
  temp : ∀ j, j ≠ i → w'.temp j = w.temp j
  dead : w'.dead = w.dead

namespace Untouched

omit [Sha256] [DecidableEq ι] in
theorem refl (path : StorePath) (i : ι) (w : World ι) : Untouched path i w w :=
  ⟨rfl, rfl, rfl, rfl, fun _ _ => rfl, rfl⟩

omit [Sha256] [DecidableEq ι] in
theorem valid_iff (h : Untouched path i w w') : w'.db.Valid path ↔ w.db.Valid path := by
  rw [Database.valid_iff, Database.valid_iff, h.row]

omit [Sha256] [DecidableEq ι] in
theorem frame (h : Untouched path i w w') : Frame path i w w' := by
  refine ⟨h.temp, h.dead, fun j _ hj => ?_, fun j _ _ hnew => ?_, fun j _ _ hnothing => ?_,
    fun j _ _ hj => ⟨?_, h.contents⟩⟩
  · rwa [h.holder]
  · rwa [h.valid_iff]
  · rwa [h.contents]
  · rwa [h.placing]

omit [DecidableEq ι] in
theorem sound (h : Untouched path i w w') (hsound : Sound path met w) : Sound path met w' := by
  intro hvalid
  obtain ⟨t, ht, hstored⟩ := hsound (h.valid_iff.mp hvalid)
  exact ⟨t, ht, h.contents.trans hstored.contents, by rw [h.row]; exact hstored.row⟩

omit [Sha256] in
theorem putTemp (path : StorePath) (i : ι) (w : World ι) (c : Contents) :
    Untouched path i w (w.put i .temp c) :=
  ⟨rfl, rfl, rfl, rfl, fun _ hj => Function.update_of_ne hj _ _, rfl⟩

omit [Sha256] in
theorem place {p : StorePath} (hp : p ≠ path) (c : Contents) : Untouched path i w (w.place i p c) :=
  ⟨rfl, Function.update_of_ne (Ne.symm hp) _ _, rfl, Function.update_of_ne (Ne.symm hp) _ _,
    fun _ _ => rfl, rfl⟩

omit [Sha256] in
theorem placeTemp {p : StorePath} (hp : p ≠ path) (c c' : Contents) :
    Untouched path i w ((w.place i p c).put i .temp c') :=
  ⟨rfl, Function.update_of_ne (Ne.symm hp) _ _, rfl, Function.update_of_ne (Ne.symm hp) _ _,
    fun _ hj => Function.update_of_ne hj _ _, rfl⟩

omit [Sha256] in
theorem release {p : StorePath} (hp : p ≠ path) : Untouched path i w (w.release i p) :=
  ⟨rfl, rfl, Function.update_of_ne (Ne.symm hp) _ _, Function.update_of_ne (Ne.symm hp) _ _,
    fun _ _ => rfl, rfl⟩

end Untouched

/-- The path is not registered, and nobody else, who has the lock, has begun to put something
there. -/
def MayRemove (path : StorePath) (i : ι) (w : World ι) : Prop :=
  ¬ w.db.Valid path ∧ ∀ j, j ≠ i → w.holder path = some j → w.placing path ≠ some j

/-- What others know of the path is left alone, and that it has its tree if it is registered. -/
structure Spares (path : StorePath) (met : Set Tree) (i : ι) (w w' : World ι) : Prop where
  frame : Frame path i w w'
  sound : Sound path met w → Sound path met w'

omit [DecidableEq ι] in
theorem Untouched.spares (h : Untouched path i w w') : Spares path met i w w' :=
  ⟨h.frame, h.sound⟩

theorem MayRemove.spares (h : MayRemove path i w) {c : Contents}
    (hc : w.contents path = .nothing → c = .nothing) :
    Spares path met i w (w.put i (.realPath path) c) := by
  obtain ⟨hnew, hplacing⟩ := h
  refine ⟨⟨fun _ _ => rfl, rfl, fun _ _ hj => hj, fun _ _ _ hj => hj, fun _ _ _ hj => ?_,
    fun j hne hholder hj => ?_⟩, fun _ hvalid => absurd hvalid hnew⟩
  · exact (Function.update_self ..).trans (hc hj)
  · exact absurd hj (hplacing j hne hholder)

omit [DecidableEq ι] in
theorem invalidated_spares {db : Database} (h : Database.Invalidated w.db db path) :
    Spares path met i w { w with db := db } := by
  have hgone : ¬ db.Valid path := fun hvalid => (h.valid_iff.mp hvalid).2 rfl
  exact ⟨⟨fun _ _ => rfl, rfl, fun _ _ hj => hj, fun _ _ _ _ => hgone, fun _ _ _ hj => hj,
    fun _ _ _ hj => ⟨hj, rfl⟩⟩, fun _ hvalid => absurd hvalid hgone⟩

/-- What is done beside an import of the path. -/
theorem does_other (hother : Other path met r) (hmay : r = .remove path → MayRemove path i w)
    (h : Does settings i r w x w') : Spares path met i w w' := by
  cases r with
  | restorePath place source =>
      have hplaced : ∃ c, w' = w.restore i place c := by
        rcases h with ⟨_, _, _, _, -, -, -, rfl⟩ | ⟨-, c, rfl⟩
        · exact ⟨_, rfl⟩
        · exact ⟨_, rfl⟩
      obtain ⟨c, rfl⟩ := hplaced
      cases place with
      | temp => exact (Untouched.putTemp path i w c).spares
      | realPath p => exact (Untouched.place hother c).spares
  | isValidPath p =>
      obtain rfl := h.2
      exact (Untouched.refl path i w').spares
  | lockPath p =>
      rcases h with ⟨-, -, rfl⟩ | ⟨-, rfl⟩
      · have hheld : Untouched path i w { w with holder := Function.update w.holder p (some i) } :=
          ⟨rfl, rfl, Function.update_of_ne (Ne.symm hother) _ _, rfl, fun _ _ => rfl, rfl⟩
        exact hheld.spares
      · exact (Untouched.refl path i w').spares
  | unlockPath p deletion =>
      rcases h with ⟨-, rfl⟩ | ⟨-, rfl | rfl⟩
      · exact (Untouched.release hother).spares
      · exact (Untouched.refl path i w').spares
      · exact (Untouched.release hother).spares
  | remove p =>
      have hremoved : ∃ c, (w.contents p = .nothing → c = .nothing) ∧ w' = w.put i (.realPath p) c := by
        rcases h with ⟨-, rfl⟩ | ⟨-, c, hc, rfl⟩
        · exact ⟨.nothing, fun _ => rfl, rfl⟩
        · exact ⟨c, hc, rfl⟩
      obtain ⟨c, hc, rfl⟩ := hremoved
      by_cases hp : p = path
      · subst hp
        exact (hmay rfl).spares hc
      · have hput : Untouched path i w (w.put i (.realPath p) c) :=
          ⟨rfl, Function.update_of_ne (Ne.symm hp) _ _, rfl, rfl, fun _ _ => rfl, rfl⟩
        exact hput.spares
  | moveFile p =>
      rcases h with ⟨-, rfl | rfl⟩ | ⟨-, c, c', rfl⟩
      · exact (Untouched.place hother _).spares
      · exact (Untouched.placeTemp hother _ _).spares
      · exact (Untouched.placeTemp hother _ _).spares
  | canonicalise p recursive =>
      obtain rfl := h.2
      exact (Untouched.refl path i w').spares
  | optimisePath p =>
      obtain rfl := h
      exact (Untouched.refl path i w').spares
  | sync p =>
      obtain rfl := h
      exact (Untouched.refl path i w').spares
  | registerValidPath info =>
      obtain ⟨hp, hreferences⟩ := hother
      rcases h with ⟨b, now, db, -, hdb, -, rfl⟩ | ⟨-, rfl⟩
      · have hrow : Untouched path i w (w.registered db info.path) :=
          ⟨(registerValidPath_elsewhere hreferences hdb).2 path (Ne.symm hp), rfl, rfl, rfl,
            fun _ _ => rfl, rfl⟩
        exact hrow.spares
      · exact (Untouched.refl path i w').spares
  | lockGC =>
      rcases h with ⟨-, -, rfl⟩ | ⟨-, rfl⟩
      · exact Untouched.spares ⟨rfl, rfl, rfl, rfl, fun _ _ => rfl, rfl⟩
      · exact (Untouched.refl path i w').spares
  | unlockGC =>
      rcases h with ⟨-, rfl⟩ | ⟨-, rfl⟩
      · exact Untouched.spares ⟨rfl, rfl, rfl, rfl, fun _ _ => rfl, rfl⟩
      · exact (Untouched.refl path i w').spares
  | findRoots =>
      obtain rfl := h.2
      exact (Untouched.refl path i w').spares
  | invalidatePathChecked p =>
      rcases h with ⟨db, hdb, -, rfl⟩ | ⟨-, rfl⟩
      · have hinvalidated := Database.invalidated_of_ok hdb
        by_cases hp : p = path
        · subst hp
          exact invalidated_spares hinvalidated
        · have hrow : Untouched path i w { w with db := db } :=
            ⟨(hinvalidated.row path).trans (if_neg (Ne.symm hp)), rfl, rfl, rfl, fun _ _ => rfl, rfl⟩
          exact hrow.spares
      · exact (Untouched.refl path i w').spares
  | dirGrantsDefaultAcl => exact hother.elim
  | createTempDirInStore => exact hother.elim
  | deleteTempDir => exact hother.elim
  | finishHash writes => exact hother.elim

omit [Sha256] in
theorem refs_of_invalidatePathChecked {cfg : StoreDirConfig} {db db' : Database} {p : StorePath}
    (hrefs : db.refs = []) (h : db.invalidatePathChecked cfg p = .ok db') : db'.refs = [] := by
  rw [Database.invalidatePathChecked] at h
  split at h
  · simp only at h
    split at h
    · cases h
    · rw [Database.invalidatePath] at h
      split at h
      · obtain rfl := Except.ok.inj h
        exact hrefs
      · split at h
        · obtain rfl := Except.ok.inj h
          simp [Database.withoutPath, hrefs]
        · cases h
  · obtain rfl := Except.ok.inj h
    exact hrefs

/-- Without references in what is registered `Refs` stays empty. -/
theorem does_refs (hreferences : ∀ info, r = .registerValidPath info → info.references = [])
    (hrefs : w.db.refs = []) (h : Does settings i r w x w') : w'.db.refs = [] := by
  cases r with
  | restorePath place source =>
      have hplaced : ∃ c, w' = w.restore i place c := by
        rcases h with ⟨_, _, _, _, -, -, -, rfl⟩ | ⟨-, c, rfl⟩
        · exact ⟨_, rfl⟩
        · exact ⟨_, rfl⟩
      obtain ⟨c, rfl⟩ := hplaced
      cases place <;> exact hrefs
  | createTempDirInStore => rcases h with ⟨-, rfl⟩ | ⟨-, rfl⟩ <;> exact hrefs
  | deleteTempDir => rcases h with ⟨-, rfl⟩ | ⟨-, c, rfl⟩ <;> exact hrefs
  | lockPath p => rcases h with ⟨-, -, rfl⟩ | ⟨-, rfl⟩ <;> exact hrefs
  | unlockPath p => rcases h with ⟨-, rfl⟩ | ⟨-, rfl | rfl⟩ <;> exact hrefs
  | remove p => rcases h with ⟨-, rfl⟩ | ⟨-, c, -, rfl⟩ <;> exact hrefs
  | moveFile p => rcases h with ⟨-, rfl | rfl⟩ | ⟨-, c, c', rfl⟩ <;> exact hrefs
  | registerValidPath info =>
      rcases h with ⟨b, now, db, -, hdb, -, rfl⟩ | ⟨-, rfl⟩
      · exact (registerValidPath_elsewhere (hreferences info rfl) hdb).1.trans hrefs
      · exact hrefs
  | lockGC => rcases h with ⟨-, -, rfl⟩ | ⟨-, rfl⟩ <;> exact hrefs
  | unlockGC => rcases h with ⟨-, rfl⟩ | ⟨-, rfl⟩ <;> exact hrefs
  | invalidatePathChecked p =>
      rcases h with ⟨db, hdb, -, rfl⟩ | ⟨-, rfl⟩
      · exact refs_of_invalidatePathChecked hrefs hdb
      · exact hrefs
  | dirGrantsDefaultAcl =>
      obtain rfl := h
      exact hrefs
  | optimisePath p =>
      obtain rfl := h
      exact hrefs
  | sync p =>
      obtain rfl := h
      exact hrefs
  | _ =>
      obtain rfl := h.2
      exact hrefs

end Beside

/-! ## Runs -/

/-- What a process may be asked to do. -/
inductive Operation where
  | addToStoreFromDump (source name : Bytes)
  | importVerified (source : Bytes)
  | collectGarbage (paths : List StorePath)

namespace Operation

variable [Sha256] (settings : Settings) (reads : ReadSizes) (depth : Nat)

def program : Operation → Prog Requests Unit
  | addToStoreFromDump source name => do
      let _ ← Adding.addToStoreFromDump settings depth source name
      pure ()
  | importVerified source => do
      let _ ← Adding.importVerified settings reads depth source
      pure ()
  | collectGarbage paths => Adding.collectGarbage settings depth paths

/-- The operation reads the archive of the tree. -/
def Offers : Operation → Tree → Prop
  | addToStoreFromDump source _, t => ∃ rest, source = t.nar ++ rest
  | importVerified source, t => Receives settings reads source t
  | collectGarbage _, _ => False

/-- One operation after the other, whatever becomes of each. -/
def inTurn (operations : List Operation) : Prog Requests PUnit :=
  operations.forM fun o => do
    let _ ← (o.program settings reads depth).attempt
    pure ⟨⟩

variable {settings reads depth} {path : StorePath} {met : Set Tree}

theorem program_shares {o : Operation} (hmet : ∀ t, o.Offers settings reads t →
      settings.makeContentAddressedPath path.name (hashString t.nar) = .ok path → t ∈ met) :
    Shares path met (o.program settings reads depth) := by
  cases o with
  | addToStoreFromDump source name =>
      exact (Shares.addToStoreFromDump source name fun t rest _ _ hsource hpath =>
        hmet t ⟨rest, hsource⟩ hpath).bind fun _ => .done _
  | importVerified source =>
      exact (Shares.importVerified source fun t ht => hmet t ht).bind fun _ => .done _
  | collectGarbage paths => exact Shares.collectGarbage paths

theorem inTurn_shares {operations : List Operation}
    (hmet : ∀ o ∈ operations, ∀ t, o.Offers settings reads t →
      settings.makeContentAddressedPath path.name (hashString t.nar) = .ok path → t ∈ met) :
    Shares path met (inTurn settings reads depth operations) :=
  .forM fun o ho => (program_shares (hmet o ho)).attempt.bind fun _ => .done _

end Operation

/-- Processes on a store in which each path, if it is valid, has the tree `stored`. -/
structure Users [Sha256] (ι : Type) where
  settings : Settings
  reads : ReadSizes
  depth : ι → Nat
  operations : ι → List Operation
  stored : StorePath → Option Tree
  stored_eq : ∀ p t, stored p = some t →
    settings.makeContentAddressedPath p.name (hashString t.nar) = .ok p

namespace Users

variable [Sha256] {ι : Type} [DecidableEq ι] (U : Users ι)

/-- Nobody has begun, in a store without references whose paths all have their trees. -/
structure Initial (m : Machine Requests (World ι) ι PUnit) : Prop where
  process : m.process = fun i =>
    .start (Operation.inTurn U.settings U.reads (U.depth i) (U.operations i))
  refs : m.state.db.refs = []
  sound : ∀ p, m.state.db.Valid p → ∃ t, U.stored p = some t ∧ Stored p m.state t

def system : TransitionSystem (Machine Requests (World ι) ι PUnit) (Actor ι) :=
  machine (exec U.settings) (fun t => t.elim) (fun w w' => ∃ i, w' = w.died i) U.Initial

/-- Nobody removes anything at a path that is registered, or at which another process, which has
the lock, has begun to put something. -/
def Spared (m : Machine Requests (World ι) ι PUnit) (a : Actor ι) : Prop :=
  ∀ i p k, a = .process i → (m.process i).main = .op (.remove p) k → MayRemove p i m.state

/-- `Spared`, of a call. -/
def MayCall (i : ι) (r : Request) (w : World ι) : Prop := ∀ p, r = .remove p → MayRemove p i w

/-- The tree has been read by somebody, or was in the store. -/
def Known (p : StorePath) (t : Tree) : Prop :=
  (∃ i, ∃ o ∈ U.operations i, o.Offers U.settings U.reads t) ∨ U.stored p = some t

/-- The known trees of which a path may be that of the content. -/
def trees (p : StorePath) : Set Tree :=
  {t | U.settings.makeContentAddressedPath p.name (hashString t.nar) = .ok p ∧ U.Known p t}

/-- The path has its complete tree, which somebody has read or which was there before, and is the
path of the content of this tree; its row has the hash and the size of the tree, and it has no
references. -/
def Intact (w : World ι) (path : StorePath) : Prop :=
  ∃ t, Stored path w t ∧ U.Known path t ∧
    U.settings.makeContentAddressedPath path.name (hashString t.nar) = .ok path ∧
    ∀ q, ¬ w.db.Refers path q

/-- What holds beside what each process knows. -/
structure Inv (path : StorePath) (w : World ι) (R : Thread ι → Option Stage) : Prop where
  staged : Staged path (U.trees path) w R
  refs : w.db.refs = []

variable {U} {path : StorePath} {w w' : World ι} {R : Thread ι → Option Stage}
  {m : Machine Requests (World ι) ι PUnit}

omit [DecidableEq ι] in
theorem Inv.intact (h : U.Inv path w R) (hvalid : w.db.Valid path) : U.Intact w path := by
  obtain ⟨t, ⟨hpath, hknown⟩, hstored⟩ := h.staged.sound hvalid
  refine ⟨t, hstored, hknown, hpath, ?_⟩
  rintro q ⟨a, b, -, -, href⟩
  rw [h.refs] at href
  cases href

theorem Inv.op {a : Thread ι} {r : Request} {x : Except Exception r.Val} (h : U.Inv path w R)
    (hpre : (Sharing path (U.trees path)).pre r (R a))
    (hexec : MayCall a.1 r w ∧ exec U.settings a.1 r w x w') :
    ∃ held, (Sharing path (U.trees path)).post r (R a) x held ∧
      U.Inv path w' (Function.update R a held) := by
  obtain ⟨s, hs, hne, hcall⟩ := hpre
  obtain ⟨hmay, hexec⟩ := hexec
  have hanswer := answer_of_exec hexec
  have hreferences : ∀ info, r = .registerValidPath info → info.references = [] := by
    rintro info rfl
    rcases hcall with ⟨t, -, hinfo⟩ | ⟨-, -, hnone⟩
    · exact hinfo.references
    · exact hnone
  have hrefs := does_refs hreferences h.refs hexec.2
  by_cases hbeside : Beside path (U.trees path) r s
  · refine ⟨some (.free none), ⟨hanswer, s, hs, Or.inl ⟨hbeside, rfl⟩⟩, ?_, hrefs⟩
    have hspares : Spares path (U.trees path) a.1 w w' :=
      does_other hbeside.2 (fun hr => hmay path hr) hexec.2
    have hmain := h.staged.main hs
    refine ⟨fun j n => ?_, fun j u hu hj => ?_, hspares.sound h.staged.sound⟩
    · rw [hmain, Function.update_of_ne (by simp)]
      exact h.staged.tasks j n
    · by_cases hja : (j, none) = a
      · rw [hja, Function.update_self] at hu
        obtain rfl := Option.some.inj hu
        exact fun t ht => by cases ht
      · rw [Function.update_of_ne hja] at hu
        rw [hspares.frame.dead] at hj
        refine hspares.frame.knows (fun hji => hja ?_) (h.staged.knows j u hu hj)
        rw [hmain, hji]
  · have hallowed : Allowed path (U.trees path) r s := hcall.resolve_right hbeside
    obtain ⟨s', hafter, hstaged⟩ :=
      h.staged.op hs hallowed (fun hcollecting => absurd hcollecting hne) hexec
    refine ⟨some s'.forget, ⟨hanswer, s, hs, Or.inr ⟨hbeside, s', hafter, rfl⟩⟩, ?_, hrefs⟩
    have hmain := h.staged.main hs
    refine ⟨fun j n => ?_, fun j u hu hj => ?_, hstaged.sound⟩
    · rw [hmain, Function.update_of_ne (by simp)]
      exact h.staged.tasks j n
    · by_cases hja : (j, none) = a
      · rw [hja, Function.update_self] at hu
        obtain rfl := Option.some.inj hu
        have hknows := hstaged.knows j s' (by rw [hja, Function.update_self]) hj
        cases s' with
        | settled => exact fun t ht => by cases ht
        | _ => exact hknows
      · rw [Function.update_of_ne hja] at hu
        refine hstaged.knows j u ?_ hj
        rw [Function.update_of_ne hja]
        exact hu

/-- What a process holds before it begins. -/
def started (a : Thread ι) : Option Stage :=
  match a.2 with
  | none => some (.free none)
  | some _ => none

theorem inv_of_reachable (path : StorePath) (h : (U.system.restrict Spared).Reachable m) :
    ∃ R, U.Inv path m.state R := by
  have hnone : ∀ m, U.Initial m → ∀ i, (m.process i).tasks = fun _ => none := by
    intro m hm i
    rw [hm.process]
    rfl
  have hmay : ∀ (m : Machine Requests (World ι) ι PUnit) i r k, Spared m (.process i) → (m.process i).main = .op r k →
      MayCall i r m.state := by
    rintro m i _ k hspared hmain p rfl
    exact hspared i p k rfl hmain
  have hreach := reachable_of_restrict hnone hmay h
  have hup : Upholds (fun i r w x w' => MayCall i r w ∧ exec U.settings i r w x w')
      (fun w w' => ∃ i, w' = w.died i) (Sharing path (U.trees path)) none (U.Inv path) :=
    { op := fun w R a r x w' hinv hpre hexec => hinv.op hpre hexec
      fork := fun _ _ _ _ t => isEmptyElim t
      join := fun w R i hinv _ => ⟨_, rfl, by rwa [Function.update_eq_self]⟩
      outside := by
        rintro w R _ hinv ⟨i, rfl⟩
        exact ⟨hinv.staged.died i, hinv.refs⟩ }
  have hstart : ∀ m, U.Initial m → ∃ R, U.Inv path m.state R ∧
      Foundation.Kept (Sharing path (U.trees path)) True none (fun _ _ _ => True) m.process R := by
    intro m hm
    have hstaged : Staged path (U.trees path) m.state started := by
      refine ⟨fun _ _ => rfl, ?_, fun hvalid => ?_⟩
      · rintro i _ ⟨⟩ -
        exact fun t ht => by cases ht
      · obtain ⟨t, ht, hstored⟩ := hm.sound path hvalid
        exact ⟨t, ⟨U.stored_eq path t ht, Or.inr ht⟩, hstored⟩
    refine ⟨started, ⟨hstaged, hm.refs⟩, fun i => ?_, fun i n p hp => ?_, fun _ _ _ => rfl⟩
    · rw [hm.process]
      have hshares : Shares path (U.trees path)
          (Operation.inTurn U.settings U.reads (U.depth i) (U.operations i)) :=
        Operation.inTurn_shares fun o ho t ht hpath => ⟨hpath, Or.inl ⟨i, o, ho, ht⟩⟩
      exact (hshares none).mono fun _ _ _ => trivial
    · rw [hnone m hm i] at hp
      cases hp
  obtain ⟨R, hinv, -⟩ := machine_meets hup (fun t => isEmptyElim t) hstart hreach
  exact ⟨R, hinv⟩

end Users

end Adding
end Store
end Archinix
