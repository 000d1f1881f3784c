import Archinix.Store.ImportStages

/-!
# What the processes on a store keep

What each process knows at its stage, and that a registered path has its tree: every call
that the contract of an import allows keeps both, as long as a collector removes nothing
that is registered or being put in its place (`Staged.op`).
-/

namespace Archinix
namespace Store
namespace Adding

open Foundation Util

section Knows

variable {ι : Type} {path : StorePath} {met : Set Tree} {w w' : World ι} {i j : ι} {s s' : Stage}

/-- The tree is in the temporary directory. -/
def HasTemp (met : Set Tree) (w : World ι) (i : ι) (temp : Option Tree) : Prop :=
  ∀ t, temp = some t → w.temp i = .tree t ∧ t ∈ met

/-- What a process knows at a stage. -/
def Knows (path : StorePath) (met : Set Tree) (w : World ι) (i : ι) : Stage → Prop
  | .free temp => HasTemp met w i temp
  | .locked temp => w.holder path = some i ∧ HasTemp met w i temp
  | .unregistered temp => w.holder path = some i ∧ ¬ w.db.Valid path ∧ HasTemp met w i temp
  | .cleared temp => w.holder path = some i ∧ ¬ w.db.Valid path ∧ w.contents path = .nothing ∧
      HasTemp met w i temp
  | .moved t => w.holder path = some i ∧ ¬ w.db.Valid path ∧ w.placing path = some i ∧
      (w.contents path = .nothing ∨ w.contents path = .tree t) ∧ t ∈ met
  | .placed t => w.holder path = some i ∧ ¬ w.db.Valid path ∧ w.placing path = some i ∧
      w.contents path = .tree t ∧ t ∈ met
  | .settled => True
  | .collecting => True

/-- What the others know is left alone. -/
structure Frame (path : StorePath) (i : ι) (w w' : World ι) : Prop where
  temp : ∀ j, j ≠ i → w'.temp j = w.temp j
  dead : w'.dead = w.dead
  holder : ∀ j, j ≠ i → w.holder path = some j → w'.holder path = some j
  valid : ∀ j, j ≠ i → w.holder path = some j → ¬ w.db.Valid path → ¬ w'.db.Valid path
  nothing : ∀ j, j ≠ i → w.holder path = some j → w.contents path = .nothing →
    w'.contents path = .nothing
  placing : ∀ j, j ≠ i → w.holder path = some j → w.placing path = some j →
    w'.placing path = some j ∧ w'.contents path = w.contents path

namespace Frame

/-- Nothing has changed that an import looks at. -/
theorem of_eq (htemp : w'.temp = w.temp) (hdead : w'.dead = w.dead) (hholder : w'.holder = w.holder)
    (hplacing : w'.placing = w.placing) (hcontents : w'.contents = w.contents) (hdb : w'.db = w.db) :
    Frame path i w w' := by
  refine ⟨fun _ _ => by rw [htemp], hdead, fun _ _ h => ?_, fun _ _ _ h => ?_, fun _ _ _ h => ?_,
    fun _ _ _ h => ⟨?_, by rw [hcontents]⟩⟩
  · rwa [hholder]
  · rwa [hdb]
  · rwa [hcontents]
  · rwa [hplacing]

theorem refl (path : StorePath) (i : ι) (w : World ι) : Frame path i w w :=
  of_eq rfl rfl rfl rfl rfl rfl

/-- Nobody else has the lock. -/
theorem of_free (h : ∀ j, j ≠ i → w.holder path ≠ some j) (htemp : ∀ j, j ≠ i → w'.temp j = w.temp j)
    (hdead : w'.dead = w.dead) : Frame path i w w' :=
  ⟨htemp, hdead, fun j hj hh => absurd hh (h j hj), fun j hj hh => absurd hh (h j hj),
    fun j hj hh => absurd hh (h j hj), fun j hj hh => absurd hh (h j hj)⟩

/-- The process has the lock. -/
theorem of_holder (h : w.holder path = some i) (htemp : ∀ j, j ≠ i → w'.temp j = w.temp j)
    (hdead : w'.dead = w.dead) : Frame path i w w' := by
  refine of_free (fun j hj hh => hj ?_) htemp hdead
  exact Option.some.inj (hh.symm.trans h)

theorem putTemp [DecidableEq ι] (path : StorePath) (i : ι) (w : World ι) (c : Contents) :
    Frame path i w (w.put i .temp c) :=
  ⟨fun _ hj => Function.update_of_ne hj _ _, rfl, fun _ _ h => h, fun _ _ _ h => h,
    fun _ _ _ h => h, fun _ _ _ h => ⟨h, rfl⟩⟩

theorem release [DecidableEq ι] (path : StorePath) (i : ι) (w : World ι) : Frame path i w (w.release i path) := by
  refine ⟨fun _ _ => rfl, rfl, fun j hj h => ?_, fun _ _ _ h => h, fun _ _ _ h => h,
    fun j hj _ h => ⟨?_, rfl⟩⟩
  · show Function.update _ _ _ _ = _
    rw [Function.update_self, h, if_neg (by simpa using hj)]
  · show Function.update _ _ _ _ = _
    rw [Function.update_self, h, if_neg (by simpa using hj)]

theorem hasTemp (h : Frame path i w w') (hj : j ≠ i) {temp : Option Tree}
    (hknows : HasTemp met w j temp) : HasTemp met w' j temp :=
  fun t ht => ⟨(h.temp j hj).trans (hknows t ht).1, (hknows t ht).2⟩

theorem knows (h : Frame path i w w') (hj : j ≠ i) (hknows : Knows path met w j s) :
    Knows path met w' j s := by
  cases s with
  | free temp => exact h.hasTemp hj hknows
  | locked temp => exact ⟨h.holder j hj hknows.1, h.hasTemp hj hknows.2⟩
  | unregistered temp =>
      obtain ⟨hholder, hnew, htemp⟩ := hknows
      exact ⟨h.holder j hj hholder, h.valid j hj hholder hnew, h.hasTemp hj htemp⟩
  | cleared temp =>
      obtain ⟨hholder, hnew, hnothing, htemp⟩ := hknows
      exact ⟨h.holder j hj hholder, h.valid j hj hholder hnew, h.nothing j hj hholder hnothing,
        h.hasTemp hj htemp⟩
  | moved t =>
      obtain ⟨hholder, hnew, hplacing, hcontents, ht⟩ := hknows
      obtain ⟨hplacing', hsame⟩ := h.placing j hj hholder hplacing
      exact ⟨h.holder j hj hholder, h.valid j hj hholder hnew, hplacing', by rwa [hsame], ht⟩
  | placed t =>
      obtain ⟨hholder, hnew, hplacing, hcontents, ht⟩ := hknows
      obtain ⟨hplacing', hsame⟩ := h.placing j hj hholder hplacing
      exact ⟨h.holder j hj hholder, h.valid j hj hholder hnew, hplacing', by rwa [hsame], ht⟩
  | settled => trivial
  | collecting => trivial

end Frame

theorem Knows.released (h : Knows path met w i s) (s' : Stage) (hs : s' = s.released) :
    Knows path met w' i s' := by
  subst hs
  cases s <;> first | exact trivial | exact fun t ht => by cases ht

end Knows

section Invariant

variable [Sha256] {settings : Settings} {ι : Type} [DecidableEq ι] {path : StorePath}
  {met : Set Tree} {w w' : World ι} {i j : ι} {s s' : Stage} {r : Request}
  {x : Except Exception r.Val}

/-- The path has its tree, and the row of it. -/
structure Stored (path : StorePath) (w : World ι) (t : Tree) : Prop where
  contents : w.contents path = .tree t
  row : ∃ row, w.db.queryPathInfo path = some row ∧ row.hash = hashString t.nar ∧
    row.narSize = some t.nar.length

/-! ## One call -/

/-- The collector does not remove the path while it is registered or being put in its place. -/
def Careful (path : StorePath) (w : World ι) (r : Request) (s : Stage) : Prop :=
  s = .collecting → r = .remove path → ¬ w.db.Valid path ∧ w.placing path = none

/-- What the call does is seen by the process itself. -/
theorem does_knows (hknows : Knows path met w i s) (hallowed : Allowed path met r s)
    (h : Does settings i r w x w') : ∃ s', After met r s x s' ∧ Knows path met w' i s' := by
  cases r with
  | dirGrantsDefaultAcl =>
      obtain rfl := h
      exact ⟨s, by cases s <;> rfl, hknows⟩
  | createTempDirInStore => exact ⟨.free none, rfl, fun t ht => by cases ht⟩
  | deleteTempDir => exact ⟨_, rfl, hknows.released _ rfl⟩
  | restorePath place source =>
      obtain ⟨hmet, hplace⟩ := hallowed
      rcases h with ⟨reads, t, rest, writes, hparse, hsource, rfl, rfl⟩ | ⟨⟨e, rfl⟩, c, rfl⟩
      · obtain ⟨u, hu, hrepresentable, hheight, hnar⟩ := nar_of_parseIntoMemory hparse
        obtain rfl := Option.some.inj hu
        have ht : t ∈ met := hmet t rest hrepresentable hheight hnar
        have harchived : Archived met source (writes, rest) t :=
          ⟨ht, hrepresentable, hheight, List.append_cancel_right (hsource.symm.trans hnar), hnar⟩
        rcases hplace with ⟨rfl, temp, rfl⟩ | ⟨rfl, temp, rfl⟩
        · refine ⟨.free (some t), ⟨t, harchived, rfl⟩, ?_⟩
          rintro _ ⟨⟩
          exact ⟨Function.update_self .., ht⟩
        · obtain ⟨hholder, hnew, -, -⟩ := hknows
          exact ⟨.placed t, ⟨t, harchived, rfl⟩, hholder, hnew, Function.update_self ..,
            Function.update_self .., ht⟩
      · rcases hplace with ⟨rfl, temp, rfl⟩ | ⟨rfl, temp, rfl⟩
        · exact ⟨.free none, rfl, fun t ht => by cases ht⟩
        · exact ⟨.locked none, rfl, hknows.1, fun t ht => by cases ht⟩
  | finishHash writes =>
      obtain ⟨hresult, rfl⟩ := h
      refine ⟨s, ⟨fun result hx => ?_, rfl⟩, hknows⟩
      rcases hresult with ⟨result', hmay, rfl⟩ | ⟨e, rfl⟩
      · obtain rfl := Except.ok.inj hx
        exact AsyncHashSink.mayReturn_iff.mp hmay
      · cases hx
  | isValidPath p =>
      obtain ⟨rfl, -⟩ := hallowed
      obtain ⟨hx, rfl⟩ := h
      rcases hx with rfl | ⟨e, rfl⟩
      · refine ⟨s.checked (w'.db.isValidPath_ p), rfl, ?_⟩
        rcases hvalid : w'.db.isValidPath_ p with - | -
        · have hnew : ¬ w'.db.Valid p := by simp [Database.Valid, hvalid]
          cases s with
          | locked temp => exact ⟨hknows.1, hnew, hknows.2⟩
          | _ => exact hknows
        · exact trivial
      · exact ⟨s, rfl, hknows⟩
  | lockPath p =>
      obtain ⟨rfl, temp, rfl⟩ := hallowed
      rcases h with ⟨rfl, -, rfl⟩ | ⟨⟨e, rfl⟩, rfl⟩
      · exact ⟨.locked temp, rfl, Function.update_self .., hknows⟩
      · exact ⟨.free temp, rfl, hknows⟩
  | unlockPath p deletion => exact ⟨_, rfl, hknows.released _ rfl⟩
  | remove p =>
      obtain ⟨rfl, temp, rfl⟩ | rfl := hallowed
      · rcases h with ⟨rfl, rfl⟩ | ⟨rfl | ⟨e, rfl⟩, c, -, rfl⟩
        · exact ⟨.cleared temp, rfl, hknows.1, hknows.2.1, Function.update_self .., hknows.2.2⟩
        · exact ⟨.unregistered temp, rfl, hknows⟩
        · exact ⟨.unregistered temp, rfl, hknows⟩
      · exact ⟨.collecting, rfl, trivial⟩
  | moveFile p =>
      obtain ⟨rfl, t, rfl⟩ := hallowed
      obtain ⟨hholder, hnew, hnothing, htemp⟩ := hknows
      obtain ⟨htemp, ht⟩ := htemp t rfl
      rcases h with ⟨rfl, rfl | rfl⟩ | ⟨⟨e, rfl⟩, c, c', rfl⟩
      · refine ⟨.moved t, rfl, hholder, hnew, Function.update_self .., Or.inl ?_, ht⟩
        exact (Function.update_self ..).trans hnothing
      · refine ⟨.moved t, rfl, hholder, hnew, Function.update_self .., Or.inr ?_, ht⟩
        exact (Function.update_self ..).trans htemp
      · exact ⟨.locked none, rfl, hholder, fun t ht => by cases ht⟩
  | canonicalise p recursive =>
      obtain ⟨rfl, t, rfl | rfl⟩ := hallowed
      · obtain ⟨hx, rfl⟩ := h
        rcases x with e | _
        · exact ⟨.moved t, rfl, hknows⟩
        · obtain ⟨hholder, hnew, hplacing, hcontents, ht⟩ := hknows
          exact ⟨.placed t, rfl, hholder, hnew, hplacing, hcontents.resolve_left (hx rfl), ht⟩
      · obtain ⟨-, rfl⟩ := h
        exact ⟨.placed t, rfl, hknows⟩
  | optimisePath p =>
      obtain ⟨rfl, t, rfl⟩ := hallowed
      obtain rfl := h
      exact ⟨.placed t, rfl, hknows⟩
  | sync p =>
      obtain ⟨rfl, t, rfl⟩ := hallowed
      obtain rfl := h
      exact ⟨.placed t, rfl, hknows⟩
  | registerValidPath info =>
      obtain ⟨t, rfl, hinfo⟩ := hallowed
      rcases h with ⟨b, now, db, hb, hdb, rfl, rfl⟩ | ⟨⟨e, rfl⟩, rfl⟩
      · exact ⟨.settled, rfl, trivial⟩
      · exact ⟨.placed t, rfl, hknows⟩
  | lockGC =>
      obtain rfl := hallowed
      exact ⟨.collecting, rfl, trivial⟩
  | unlockGC =>
      obtain rfl := hallowed
      exact ⟨.collecting, rfl, trivial⟩
  | findRoots =>
      obtain rfl := hallowed
      exact ⟨.collecting, rfl, trivial⟩
  | invalidatePathChecked p =>
      obtain rfl := hallowed
      exact ⟨.collecting, rfl, trivial⟩

omit [DecidableEq ι] in
theorem registered_stored {db : Database} {info : ValidPathInfo} {t : Tree} {now : Int} {b : Bool}
    (hnew : ¬ w.db.Valid path) (hcontents : w.contents path = .tree t) (hinfo : Describes info path t)
    (hdb : w.db.registerValidPath settings.toStoreDirConfig now info b = .ok db) :
    Stored path (w.registered db path) t := by
  obtain ⟨rfl, hhash, hsize, hreferences⟩ := hinfo
  have hca : info.ca.isSome → b = true := by
    intro hsome
    by_contra hb
    have hvalid : w.db.isValidPath_ info.path = false := by simpa [Database.Valid] using hnew
    rw [Database.registerValidPath, hvalid, if_neg (by simp), Database.addValidPath,
      if_pos ⟨hsome, by simpa using hb⟩] at hdb
    cases hdb
  obtain ⟨db', hdb', hregistered⟩ :=
    Database.registerValidPath_new settings.toStoreDirConfig now hnew hreferences hca
  obtain rfl := Except.ok.inj (hdb.symm.trans hdb')
  obtain ⟨row, hrow, hrowHash, hrowSize, -⟩ := hregistered.row
  have hpos : t.nar.length ≠ 0 := by simp [Tree.nar, encodeString, littleEndian_length]
  exact ⟨hcontents, row, hrow, hrowHash.trans hhash, by rw [hrowSize, hsize, if_pos hpos]⟩

/-- What the call does leaves the others alone. -/
theorem does_frame (hknows : Knows path met w i s) (hallowed : Allowed path met r s)
    (hcareful : Careful path w r s) (h : Does settings i r w x w') : Frame path i w w' := by
  cases r with
  | createTempDirInStore =>
      rcases h with ⟨-, rfl⟩ | ⟨-, rfl⟩
      · exact .putTemp path i w _
      · exact .refl _ _ _
  | deleteTempDir =>
      rcases h with ⟨-, rfl⟩ | ⟨-, c, rfl⟩
      · exact .putTemp path i w _
      · exact .putTemp path i w _
  | restorePath place source =>
      have hplaced : ∃ c, w' = w.restore i place c := by
        rcases h with ⟨_, _, _, _, -, -, -, rfl⟩ | ⟨-, c, rfl⟩
        · exact ⟨_, rfl⟩
        · exact ⟨_, rfl⟩
      obtain ⟨c, rfl⟩ := hplaced
      obtain ⟨-, ⟨rfl, -⟩ | ⟨rfl, temp, rfl⟩⟩ := hallowed
      · exact .putTemp path i w c
      · exact .of_holder hknows.1 (fun _ _ => rfl) rfl
  | lockPath p =>
      obtain ⟨rfl, -⟩ := hallowed
      rcases h with ⟨-, hfree, rfl⟩ | ⟨-, rfl⟩
      · exact .of_free (fun j _ hj => by rw [hfree] at hj; cases hj) (fun _ _ => rfl) rfl
      · exact .refl _ _ _
  | unlockPath p deletion =>
      obtain ⟨rfl, -⟩ := hallowed
      rcases h with ⟨-, rfl⟩ | ⟨-, rfl | rfl⟩
      · exact .release p i w
      · exact .refl _ _ _
      · exact .release p i w
  | remove p =>
      have hremoved : ∃ c, (w.contents p = .nothing → c = .nothing) ∧ w' = w.put i (.realPath p) c := by
        rcases h with ⟨-, rfl⟩ | ⟨-, c, hc, rfl⟩
        · exact ⟨.nothing, fun _ => rfl, rfl⟩
        · exact ⟨c, hc, rfl⟩
      obtain ⟨c, hc, rfl⟩ := hremoved
      obtain ⟨rfl, temp, rfl⟩ | rfl := hallowed
      · exact .of_holder hknows.1 (fun _ _ => rfl) rfl
      · by_cases hp : p = path
        · subst hp
          obtain ⟨-, hplacing⟩ := hcareful rfl rfl
          refine ⟨fun _ _ => rfl, rfl, fun _ _ h => h, fun _ _ _ h => h, fun _ _ _ h => ?_,
            fun j _ _ h => ?_⟩
          · exact (Function.update_self ..).trans (hc h)
          · rw [hplacing] at h
            cases h
        · have hsame : (w.put i (.realPath p) c).contents path = w.contents path :=
            Function.update_of_ne (Ne.symm hp) _ _
          exact ⟨fun _ _ => rfl, rfl, fun _ _ h => h, fun _ _ _ h => h,
            fun _ _ _ h => hsame.trans h, fun _ _ _ h => ⟨h, hsame⟩⟩
  | moveFile p =>
      obtain ⟨rfl, t, rfl⟩ := hallowed
      have htemp : ∀ {c c'} j, j ≠ i → ((w.place i p c).put i .temp c').temp j = w.temp j :=
        fun j hj => Function.update_of_ne hj _ _
      rcases h with ⟨-, rfl | rfl⟩ | ⟨-, c, c', rfl⟩
      · exact .of_holder hknows.1 (fun _ _ => rfl) rfl
      · exact .of_holder hknows.1 htemp rfl
      · exact .of_holder hknows.1 htemp rfl
  | registerValidPath info =>
      obtain ⟨t, rfl, -⟩ := hallowed
      rcases h with ⟨_, _, db, -, -, -, rfl⟩ | ⟨-, rfl⟩
      · exact .of_holder hknows.1 (fun _ _ => rfl) rfl
      · exact .refl _ _ _
  | lockGC =>
      rcases h with ⟨-, -, rfl⟩ | ⟨-, rfl⟩
      · exact .of_eq rfl rfl rfl rfl rfl rfl
      · exact .refl _ _ _
  | unlockGC =>
      rcases h with ⟨-, rfl⟩ | ⟨-, rfl⟩
      · exact .of_eq rfl rfl rfl rfl rfl rfl
      · exact .refl _ _ _
  | invalidatePathChecked p =>
      rcases h with ⟨db, hdb, -, rfl⟩ | ⟨-, rfl⟩
      · refine ⟨fun _ _ => rfl, rfl, fun _ _ h => h, fun j _ _ hnew hvalid => hnew ?_,
          fun _ _ _ h => h, fun _ _ _ h => ⟨h, rfl⟩⟩
        exact ((Database.invalidated_of_ok hdb).valid_iff.mp hvalid).1
      · exact .refl _ _ _
  | dirGrantsDefaultAcl =>
      obtain rfl := h
      exact .refl _ _ _
  | finishHash writes =>
      obtain rfl := h.2
      exact .refl _ _ _
  | isValidPath p =>
      obtain rfl := h.2
      exact .refl _ _ _
  | canonicalise p recursive =>
      obtain rfl := h.2
      exact .refl _ _ _
  | optimisePath p =>
      obtain rfl := h
      exact .refl _ _ _
  | sync p =>
      obtain rfl := h
      exact .refl _ _ _
  | findRoots =>
      obtain rfl := h.2
      exact .refl _ _ _

/-- What one call may do to the path. -/
inductive Effect (path : StorePath) (met : Set Tree) (s : Stage) (w w' : World ι) : Prop
  | same (hdb : w'.db = w.db) (hcontents : w'.contents path = w.contents path)
      (hinserted : w'.inserted path = w.inserted path)
  | changed (hdb : w'.db = w.db) (hnew : ¬ w.db.Valid path)
      (hinserted : w'.inserted path = w.inserted path)
  | registered (hnew : ¬ w.db.Valid path) (hstored : ∃ t ∈ met, Stored path w' t)
      (hinserted : w'.inserted path = w.inserted path + 1)
  | invalidated (hs : s = .collecting) (hnew : ¬ w'.db.Valid path)
      (hinserted : w'.inserted path = w.inserted path)
  | elsewhere (hs : s = .collecting) (hrow : w'.db.queryPathInfo path = w.db.queryPathInfo path)
      (hcontents : w'.contents path = w.contents path)

theorem does_effect (hknows : Knows path met w i s) (hallowed : Allowed path met r s)
    (hcareful : Careful path w r s) (h : Does settings i r w x w') : Effect path met s w w' := by
  cases r with
  | createTempDirInStore =>
      rcases h with ⟨-, rfl⟩ | ⟨-, rfl⟩
      · exact .same rfl rfl rfl
      · exact .same rfl rfl rfl
  | deleteTempDir =>
      rcases h with ⟨-, rfl⟩ | ⟨-, c, rfl⟩
      · exact .same rfl rfl rfl
      · exact .same rfl rfl rfl
  | restorePath place source =>
      have hplaced : ∃ c, w' = w.restore i place c := by
        rcases h with ⟨_, _, _, _, -, -, -, rfl⟩ | ⟨-, c, rfl⟩
        · exact ⟨_, rfl⟩
        · exact ⟨_, rfl⟩
      obtain ⟨c, rfl⟩ := hplaced
      obtain ⟨-, ⟨rfl, -⟩ | ⟨rfl, temp, rfl⟩⟩ := hallowed
      · exact .same rfl rfl rfl
      · exact .changed rfl hknows.2.1 rfl
  | lockPath p =>
      rcases h with ⟨-, -, rfl⟩ | ⟨-, rfl⟩
      · exact .same rfl rfl rfl
      · exact .same rfl rfl rfl
  | unlockPath p deletion =>
      rcases h with ⟨-, rfl⟩ | ⟨-, rfl | rfl⟩
      · exact .same rfl rfl rfl
      · exact .same rfl rfl rfl
      · exact .same rfl rfl rfl
  | remove p =>
      have hremoved : ∃ c, w' = w.put i (.realPath p) c := by
        rcases h with ⟨-, rfl⟩ | ⟨-, c, -, rfl⟩
        · exact ⟨_, rfl⟩
        · exact ⟨c, rfl⟩
      obtain ⟨c, rfl⟩ := hremoved
      obtain ⟨rfl, temp, rfl⟩ | rfl := hallowed
      · exact .changed rfl hknows.2.1 rfl
      · by_cases hp : p = path
        · subst hp
          exact .changed rfl (hcareful rfl rfl).1 rfl
        · exact .same rfl (Function.update_of_ne (Ne.symm hp) _ _) rfl
  | moveFile p =>
      obtain ⟨rfl, t, rfl⟩ := hallowed
      rcases h with ⟨-, rfl | rfl⟩ | ⟨-, c, c', rfl⟩
      · exact .changed rfl hknows.2.1 rfl
      · exact .changed rfl hknows.2.1 rfl
      · exact .changed rfl hknows.2.1 rfl
  | registerValidPath info =>
      obtain ⟨t, rfl, hinfo⟩ := hallowed
      obtain ⟨hholder, hnew, hplacing, hcontents, ht⟩ := hknows
      rcases h with ⟨b, now, db, hb, hdb, -, rfl⟩ | ⟨-, rfl⟩
      · obtain rfl := hinfo.path
        refine .registered hnew ⟨t, ht, registered_stored hnew hcontents hinfo hdb⟩ ?_
        have hinvalid : w.db.isValidPath_ info.path = false := by simpa [Database.Valid] using hnew
        show Function.update _ _ _ _ = _
        rw [Function.update_self, hinvalid]
        rfl
      · exact .same rfl rfl rfl
  | lockGC =>
      rcases h with ⟨-, -, rfl⟩ | ⟨-, rfl⟩
      · exact .same rfl rfl rfl
      · exact .same rfl rfl rfl
  | unlockGC =>
      rcases h with ⟨-, rfl⟩ | ⟨-, rfl⟩
      · exact .same rfl rfl rfl
      · exact .same rfl rfl rfl
  | invalidatePathChecked p =>
      obtain rfl := hallowed
      rcases h with ⟨db, hdb, -, rfl⟩ | ⟨-, rfl⟩
      · have hinvalidated := Database.invalidated_of_ok hdb
        by_cases hp : p = path
        · subst hp
          exact .invalidated rfl (fun hvalid => (hinvalidated.valid_iff.mp hvalid).2 rfl) rfl
        · exact .elsewhere rfl ((hinvalidated.row path).trans (if_neg (Ne.symm hp))) rfl
      · exact .same rfl rfl rfl
  | dirGrantsDefaultAcl =>
      obtain rfl := h
      exact .same rfl rfl rfl
  | finishHash writes =>
      obtain rfl := h.2
      exact .same rfl rfl rfl
  | isValidPath p =>
      obtain rfl := h.2
      exact .same rfl rfl rfl
  | canonicalise p recursive =>
      obtain rfl := h.2
      exact .same rfl rfl rfl
  | optimisePath p =>
      obtain rfl := h
      exact .same rfl rfl rfl
  | sync p =>
      obtain rfl := h
      exact .same rfl rfl rfl
  | findRoots =>
      obtain rfl := h.2
      exact .same rfl rfl rfl

/-- A registered path has its tree. -/
def Sound (path : StorePath) (met : Set Tree) (w : World ι) : Prop :=
  w.db.Valid path → ∃ t ∈ met, Stored path w t

omit [DecidableEq ι] in
theorem Stored.of_same {t : Tree} (h : Stored path w t) (hdb : w'.db = w.db)
    (hcontents : w'.contents path = w.contents path) : Stored path w' t :=
  ⟨hcontents.trans h.contents, by rw [hdb]; exact h.row⟩

omit [DecidableEq ι] in
theorem Effect.sound (h : Effect path met s w w') (hsound : Sound path met w) :
    Sound path met w' := by
  cases h with
  | same hdb hcontents _ =>
      intro hvalid
      rw [hdb] at hvalid
      obtain ⟨t, ht, hstored⟩ := hsound hvalid
      exact ⟨t, ht, hstored.of_same hdb hcontents⟩
  | changed hdb hnew _ =>
      intro hvalid
      rw [hdb] at hvalid
      exact absurd hvalid hnew
  | registered _ hstored _ => exact fun _ => hstored
  | invalidated _ hnew _ => exact fun hvalid => absurd hvalid hnew
  | elsewhere _ hrow hcontents =>
      intro hvalid
      obtain ⟨row, hvalidRow⟩ := Database.valid_iff.mp hvalid
      obtain ⟨t, ht, hstored⟩ := hsound (Database.valid_iff.mpr ⟨row, hrow ▸ hvalidRow⟩)
      exact ⟨t, ht, hcontents.trans hstored.contents, by rw [hrow]; exact hstored.row⟩

omit [DecidableEq ι] in
/-- Only a collector makes a path invalid. -/
theorem Effect.valid (h : Effect path met s w w') (hs : s ≠ .collecting)
    (hvalid : w.db.Valid path) : w'.db.Valid path := by
  cases h with
  | same hdb _ _ => rwa [hdb]
  | changed hdb _ _ => rwa [hdb]
  | registered hnew _ _ => exact absurd hvalid hnew
  | invalidated hcollecting _ _ => exact absurd hcollecting hs
  | elsewhere hcollecting _ _ => exact absurd hcollecting hs

omit [DecidableEq ι] in
theorem Stored.valid {t : Tree} (h : Stored path w t) : w.db.Valid path := by
  obtain ⟨row, hrow, -⟩ := h.row
  exact Database.valid_iff.mpr ⟨row, hrow⟩

theorem importing_after (hs : s ≠ .collecting) (hallowed : Allowed path met r s)
    (h : After met r s x s') : s' ≠ .collecting := by
  cases r with
  | createTempDirInStore =>
      obtain rfl := h
      simp
  | deleteTempDir =>
      obtain rfl := h
      exact Stage.released_importing hs
  | restorePath place source =>
      cases place with
      | temp =>
          rcases x with e | read
          · obtain rfl := h
            simp
          · obtain ⟨t, -, rfl⟩ := h
            simp
      | realPath p =>
          rcases x with e | read
          · obtain rfl := h
            simp
          · obtain ⟨t, -, rfl⟩ := h
            simp
  | finishHash writes =>
      obtain rfl := h.2
      exact hs
  | isValidPath p =>
      rcases x with e | valid
      · obtain rfl := h
        exact hs
      · obtain rfl := h
        cases valid <;> cases s <;> simp_all [Stage.checked]
  | lockPath p =>
      obtain ⟨-, temp, rfl⟩ := hallowed
      rcases x with e | _ <;> obtain rfl := h <;> simp
  | unlockPath p deletion =>
      obtain rfl := h
      exact Stage.released_importing hs
  | remove p =>
      obtain ⟨-, temp, rfl⟩ | rfl := hallowed
      · rcases x with e | (_ | _) <;> obtain rfl := h <;> simp
      · exact absurd rfl hs
  | moveFile p =>
      obtain ⟨-, t, rfl⟩ := hallowed
      rcases x with e | _ <;> obtain rfl := h <;> simp
  | canonicalise p recursive =>
      obtain ⟨-, t, rfl | rfl⟩ := hallowed
      · rcases x with e | _ <;> obtain rfl := h <;> simp
      · obtain rfl := h
        simp
  | registerValidPath info =>
      rcases x with e | _
      · obtain rfl := h
        exact hs
      · obtain rfl := h
        simp
  | dirGrantsDefaultAcl =>
      obtain rfl : s' = s := by cases s <;> exact h
      exact hs
  | optimisePath p =>
      obtain rfl : s' = s := by cases s <;> exact h
      exact hs
  | sync p =>
      obtain rfl : s' = s := by cases s <;> exact h
      exact hs
  | lockGC => exact absurd hallowed hs
  | unlockGC => exact absurd hallowed hs
  | findRoots => exact absurd hallowed hs
  | invalidatePathChecked p => exact absurd hallowed hs

/-- A path is settled because it was found valid, or has been registered. -/
theorem settled_after (hs : s ≠ .settled) (hknows : Knows path met w i s)
    (hallowed : Allowed path met r s) (hafter : After met r s x .settled)
    (h : Does settings i r w x w') : w'.db.Valid path := by
  cases r with
  | createTempDirInStore => cases hafter
  | deleteTempDir => exact absurd (Stage.settled_of_released hafter.symm) hs
  | restorePath place source =>
      cases place with
      | temp =>
          rcases x with e | read
          · cases hafter
          · obtain ⟨t, -, hst⟩ := hafter
            cases hst
      | realPath p =>
          rcases x with e | read
          · cases hafter
          · obtain ⟨t, -, hst⟩ := hafter
            cases hst
  | finishHash writes => exact absurd hafter.2.symm hs
  | isValidPath p =>
      obtain ⟨rfl, -⟩ := hallowed
      rcases h with ⟨rfl | ⟨e, rfl⟩, rfl⟩
      · have hchecked : .settled = s.checked (w'.db.isValidPath_ p) := hafter
        rcases hvalid : w'.db.isValidPath_ p with - | -
        · rw [hvalid] at hchecked
          exact absurd (Stage.settled_of_checked hchecked.symm) hs
        · exact hvalid
      · exact absurd (show Stage.settled = s from hafter).symm hs
  | lockPath p =>
      obtain ⟨-, temp, rfl⟩ := hallowed
      rcases x with e | _ <;> cases hafter
  | unlockPath p deletion => exact absurd (Stage.settled_of_released hafter.symm) hs
  | remove p =>
      obtain ⟨-, temp, rfl⟩ | rfl := hallowed
      · rcases x with e | (_ | _) <;> cases hafter
      · cases hafter
  | moveFile p =>
      obtain ⟨-, t, rfl⟩ := hallowed
      rcases x with e | _ <;> cases hafter
  | canonicalise p recursive =>
      obtain ⟨-, t, rfl | rfl⟩ := hallowed
      · rcases x with e | _ <;> cases hafter
      · cases hafter
  | registerValidPath info =>
      obtain ⟨t, rfl, hinfo⟩ := hallowed
      obtain ⟨-, hnew, -, hcontents, -⟩ := hknows
      rcases h with ⟨b, now, db, hb, hdb, -, rfl⟩ | ⟨⟨e, rfl⟩, -⟩
      · obtain rfl := hinfo.path
        exact (registered_stored hnew hcontents hinfo hdb).valid
      · cases hafter
  | dirGrantsDefaultAcl => exact absurd (by cases s <;> exact hafter) hs.symm
  | optimisePath p => exact absurd (by cases s <;> exact hafter) hs.symm
  | sync p => exact absurd (by cases s <;> exact hafter) hs.symm
  | lockGC =>
      obtain rfl := hallowed
      cases hafter
  | unlockGC =>
      obtain rfl := hallowed
      cases hafter
  | findRoots =>
      obtain rfl := hallowed
      cases hafter
  | invalidatePathChecked p =>
      obtain rfl := hallowed
      cases hafter

/-! ## All processes -/

/-- What every living process knows, and that a registered path has its tree. -/
structure Staged (path : StorePath) (met : Set Tree) (w : World ι)
    (R : Thread ι → Option Stage) : Prop where
  tasks : ∀ i n, R (i, some n) = none
  knows : ∀ i s, R (i, none) = some s → i ∉ w.dead → Knows path met w i s
  sound : Sound path met w

variable {R : Thread ι → Option Stage} {a : Thread ι}

omit [DecidableEq ι] in
theorem Staged.main (h : Staged path met w R) (ha : R a = some s) : a = (a.1, none) := by
  obtain ⟨i, - | n⟩ := a
  · rfl
  · rw [h.tasks] at ha
    cases ha

/-- A call that the contract allows. -/
theorem Staged.op (h : Staged path met w R) (ha : R a = some s) (hallowed : Allowed path met r s)
    (hcareful : Careful path w r s) (hexec : exec settings a.1 r w x w') :
    ∃ s', After met r s x s' ∧ Staged path met w' (Function.update R a (some s')) := by
  obtain ⟨halive, hdoes⟩ := hexec
  obtain ⟨i, o⟩ := a
  obtain rfl : o = none := congrArg Prod.snd (h.main ha)
  have hknows := h.knows i s ha halive
  obtain ⟨s', hafter, hknows'⟩ := does_knows hknows hallowed hdoes
  have hframe := does_frame hknows hallowed hcareful hdoes
  refine ⟨s', hafter, fun j n => ?_, fun j u hu hj => ?_, ?_⟩
  · rw [Function.update_of_ne (by simp)]
    exact h.tasks j n
  · by_cases hji : j = i
    · subst hji
      rw [Function.update_self] at hu
      obtain rfl := Option.some.inj hu
      exact hknows'
    · rw [Function.update_of_ne (by simpa using hji)] at hu
      rw [hframe.dead] at hj
      exact hframe.knows hji (h.knows j u hu hj)
  · exact (does_effect hknows hallowed hcareful hdoes).sound h.sound

/-- A process dies. -/
theorem Staged.died (h : Staged path met w R) (i : ι) : Staged path met (w.died i) R := by
  have hsound : Sound path met (w.died i) := by
    intro hvalid
    obtain ⟨t, ht, hstored⟩ := h.sound hvalid
    exact ⟨t, ht, hstored.of_same rfl rfl⟩
  refine ⟨h.tasks, fun j s hs hj => ?_, hsound⟩
  have hne : i ≠ j := fun hij => hj (Or.inl hij.symm)
  have hkept : ∀ {o : Option ι}, o = some j → (if o = some i then none else o) = some j := by
    rintro _ rfl
    rw [if_neg (by simpa using hne.symm)]
  have hknows := h.knows j s hs fun hdead => hj (Or.inr hdead)
  cases s with
  | free temp => exact hknows
  | locked temp => exact ⟨hkept hknows.1, hknows.2⟩
  | unregistered temp => exact ⟨hkept hknows.1, hknows.2⟩
  | cleared temp => exact ⟨hkept hknows.1, hknows.2⟩
  | moved t => exact ⟨hkept hknows.1, hknows.2.1, hkept hknows.2.2.1, hknows.2.2.2⟩
  | placed t => exact ⟨hkept hknows.1, hknows.2.1, hkept hknows.2.2.1, hknows.2.2.2⟩
  | settled => trivial
  | collecting => trivial

end Invariant

end Adding
end Store
end Archinix
