import Archinix.Host.PartialDump
import Archinix.Store.StoreIntegrity

/-!
# Exporting and importing

What `exportPaths` writes of intact paths, `importVerified` registers in another store
(`export_import`); what it has written when it throws because a path has changed, `importVerified`
never takes for a whole stream (`failed_export`).
-/

namespace Archinix
namespace Store
namespace Adding

open Foundation Util Exporting

/-! ## One path -/

section Add

variable [Sha256] {settings : Settings} {depth : Nat} {ι : Type} [DecidableEq ι] {i : ι}
  {w w' : World ι} {path : StorePath} {t : Tree} {α β : Type}

/-- What holds if the program returns, as far as its calls return. -/
theorem ifReturns_call {r : Request} {f : r.Val → Prog Requests β} {R : β → World ι → Prop}
    (h : ∀ v w', Does settings i r w (.ok v) w' → (f v).IfReturns (exec settings i) R w') :
    (call r >>= f).IfReturns (exec settings i) R w := by
  refine Prog.ifReturns_bind.mpr (Prog.ifReturns_op.mpr ?_)
  rintro (e | v) w' ⟨-, hdoes⟩
  · exact Prog.ifReturns_error
  · exact Prog.ifReturns_ok.mpr (h v w' hdoes)

theorem ifReturns_last {r : Request} {R : r.Val → World ι → Prop}
    (h : ∀ v w', Does settings i r w (.ok v) w' → R v w') :
    (call r).IfReturns (exec settings i) R w := by
  refine Prog.ifReturns_op.mpr ?_
  rintro (e | v) w' ⟨-, hdoes⟩
  · exact Prog.ifReturns_error
  · exact Prog.ifReturns_ok.mpr (h v w' hdoes)

theorem deletePath_returns (depth : Nat) (w : World ι) : (deletePath depth path).IfReturns
    (exec settings i) (fun _ w' => w' = w.put i (.realPath path) .nothing) w := by
  induction depth generalizing w with
  | zero => exact Prog.ifReturns_spin
  | succ depth ih =>
      refine ifReturns_call ?_
      rintro more w' (⟨⟨⟩, rfl⟩ | ⟨hmore, c, -, rfl⟩)
      · exact Prog.ifReturns_ok.mpr rfl
      · obtain rfl : more = true := by
          rcases hmore with hmore | ⟨e, hthrown⟩
          · exact Except.ok.inj hmore
          · cases hthrown
        refine (ih _).mono ?_
        rintro _ _ rfl
        simp [World.put]

theorem finishPath_returns (canonicalRestore : Bool) (w : World ι) :
    (finishPath settings path canonicalRestore).IfReturns (exec settings i) (fun _ w' => w' = w) w := by
  refine ifReturns_call ?_
  rintro _ _ ⟨-, rfl⟩
  refine ifReturns_call ?_
  rintro _ _ rfl
  split
  · exact ifReturns_last fun _ _ h => h
  · exact Prog.ifReturns_ok.mpr rfl

/-- The path has been added with its tree, and all else is as it was. -/
structure Added (path : StorePath) (t : Tree) (w w' : World ι) : Prop where
  registered : Database.Registered w.db w'.db (infoOf path t.nar)
  contents : w'.contents = Function.update w.contents path (.tree t)

/-- The registration of a path that is new. -/
theorem registerValidPath_infoOf {db : Database} (now : Int) (contentAddressed : Bool)
    (hnew : ¬ db.Valid path) : ∃ db', db.registerValidPath settings.toStoreDirConfig now
      (infoOf path t.nar) contentAddressed = .ok db' ∧ db.Registered db' (infoOf path t.nar) :=
  Database.registerValidPath_new _ now hnew rfl (by simp [infoOf])

theorem placeFrom_returns (hnew : ¬ w.db.Valid path) (ht : t.Representable)
    (hheight : t.height ≤ narMaxDepth) :
    (placeFrom settings depth (infoOf path t.nar) t.nar).IfReturns (exec settings i)
      (fun _ w' => Added path t w w') w := by
  refine Prog.ifReturns_bind.mpr ((deletePath_returns depth w).mono ?_)
  rintro _ _ rfl
  refine ifReturns_call ?_
  rintro acl _ rfl
  refine ifReturns_call ?_
  rintro ⟨writes, rest⟩ w₁ (⟨reads, u, rest', writes', hparse, hsource, hread, rfl⟩ | ⟨⟨e, hthrown⟩, -⟩)
  · obtain ⟨rfl, rfl⟩ := Prod.mk.inj (Except.ok.inj hread)
    have hnar := parseIntoMemory_nar [] reads ht hheight []
    rw [List.append_nil, hparse] at hnar
    simp only [Except.ok.injEq, Prod.mk.injEq, Option.some.injEq] at hnar
    obtain ⟨rfl, rfl⟩ := hnar
    rw [List.append_nil] at hsource
    have hhash : (writes.foldl HashSink.write HashSink.new).finish = hashSink u.nar := by
      rw [HashSink.finish_foldl_write, ← hsource]
    show Prog.IfReturns _ (if _ then _ else if _ then _ else _) _ _
    rw [hhash, if_neg fun hne => hne rfl, if_neg fun hne => hne rfl]
    refine Prog.ifReturns_bind.mpr ((finishPath_returns _ _).mono ?_)
    rintro _ _ rfl
    refine ifReturns_last ?_
    rintro _ w₂ (⟨b, now, db, -, hdb, -, rfl⟩ | ⟨⟨e, hthrown⟩, -⟩)
    · obtain ⟨db', hdb', hregistered⟩ := registerValidPath_infoOf now b hnew
      obtain rfl := Except.ok.inj (hdb.symm.trans hdb')
      exact ⟨hregistered, by simp [World.registered, World.restore, World.place, World.put, infoOf]⟩
    · cases hthrown
  · cases hthrown

/-- A function that looks at the path first. -/
theorem unlessValid_returns {body : Prog Requests Unit} {R : Unit → World ι → Prop}
    (hnew : ¬ w.db.Valid path) (hbody : body.IfReturns (exec settings i) R w) :
    (unlessValid path body).IfReturns (exec settings i) R w := by
  have hinvalid : w.db.isValidPath_ path = false := by simpa [Database.Valid] using hnew
  refine ifReturns_call ?_
  rintro valid _ ⟨hvalid | ⟨e, hthrown⟩, rfl⟩
  · obtain rfl : valid = false := by
      rw [← hinvalid]
      exact Except.ok.inj hvalid
    exact hbody
  · cases hthrown

/-- Adding the archive of a path that is not there. -/
theorem addToStore_returns (hnew : ¬ w.db.Valid path) (ht : t.Representable)
    (hheight : t.height ≤ narMaxDepth) :
    (addToStore settings depth (infoOf path t.nar) t.nar).IfReturns (exec settings i)
      (fun _ w' => Added path t w w') w := by
  refine unlessValid_returns hnew (ifReturns_call ?_)
  rintro _ v (⟨-, -, rfl⟩ | ⟨⟨e, hthrown⟩, -⟩)
  · refine Prog.IfReturns.attempt_bind ?_
    have hplace : (placeFrom settings depth (infoOf path t.nar) t.nar).IfReturns (exec settings i) _
        { w with holder := Function.update w.holder path (some i) } :=
      placeFrom_returns hnew ht hheight
    refine Prog.wp_mono (unlessValid_returns hnew hplace) fun ended v hended => ?_
    refine Prog.IfReturns.attempt_bind fun x v' hexec => ?_
    cases ended with
    | error e => exact fun _ hok => by cases hok
    | ok _ =>
        -- the lock has nothing to do with what has been added
        obtain ⟨hregistered, hcontents⟩ := hended () rfl
        rcases hexec.2 with ⟨-, rfl⟩ | ⟨-, rfl | rfl⟩ <;> exact fun _ _ => ⟨hregistered, hcontents⟩
  · cases hthrown

/-- Nothing but a failure keeps a path from being added while nobody has its lock. -/
theorem ends_placeFrom (depth : Nat) (halive : i ∉ w.dead) (hnew : ¬ w.db.Valid path)
    (ht : t.Representable) (hheight : t.height ≤ narMaxDepth) :
    ∃ w', Prog.Ends (exec settings i) w (placeFrom settings (depth + 1) (infoOf path t.nar) t.nar)
      (.ok ()) w' ∧ w'.dead = w.dead ∧ w'.holder = w.holder := by
  let cleared := w.put i (.realPath path) .nothing
  let placed := cleared.place i path (.tree t)
  have halive' : i ∉ placed.dead := halive
  have hremove : Does settings i (.remove path) w (.ok false) cleared := Or.inl ⟨rfl, rfl⟩
  have hdelete : Prog.Ends (exec settings i) w (deletePath (depth + 1) path) (.ok ()) cleared :=
    (ends_call halive hremove).bind (.refl _ _)
  have hacl : Does settings i .dirGrantsDefaultAcl cleared (.ok false) cleared := rfl
  have hrestore : Does settings i (.restorePath (.realPath path) t.nar) cleared (.ok ([t.nar], []))
      placed := by
    refine Or.inl ⟨.whole, t, [], [t.nar], ?_, by simp, rfl, rfl⟩
    have hparse := parseIntoMemory_nar [] .whole ht hheight []
    rwa [List.append_nil] at hparse
  obtain ⟨b, hb, -⟩ := (infoOf path t.nar).isContentAddressed_eq settings.toStoreDirConfig
  have hnew' : ¬ placed.db.Valid path := hnew
  obtain ⟨db, hdb, -⟩ := registerValidPath_infoOf 0 b hnew'
  have hregister : Does settings i (.registerValidPath (infoOf path t.nar)) placed (.ok ())
      (placed.registered db path) := Or.inl ⟨b, 0, db, hb, hdb, rfl, rfl⟩
  have hthere : placed.contents path ≠ .nothing := by
    rw [show placed.contents path = .tree t from Function.update_self ..]
    exact Contents.noConfusion
  have hfinish : Prog.Ends (exec settings i) placed (finishPath settings path !false) (.ok ()) placed :=
    ends_finishPath halive' hthere
  have hhash : ([t.nar].foldl HashSink.write HashSink.new).finish = hashSink t.nar := by
    rw [HashSink.finish_foldl_write]
    simp
  have hcleared : i ∉ cleared.dead := halive
  refine ⟨placed.registered db path, hdelete.bind ((ends_call hcleared hacl).bind
    ((ends_call hcleared hrestore).bind ?_)), rfl, rfl⟩
  show Prog.Ends _ _ (if _ then _ else if _ then _ else _) _ _
  rw [hhash, if_neg fun hne => hne rfl, if_neg fun hne => hne rfl]
  exact hfinish.bind (ends_call halive' hregister)

theorem addToStore_ends (depth : Nat) (halive : i ∉ w.dead) (hfree : w.holder path = none)
    (hnew : ¬ w.db.Valid path) (ht : t.Representable) (hheight : t.height ≤ narMaxDepth) :
    ∃ w', Prog.Ends (exec settings i) w (addToStore settings (depth + 1) (infoOf path t.nar) t.nar)
      (.ok ()) w' ∧ w'.dead = w.dead ∧ w'.holder = w.holder := by
  have hinvalid : w.db.isValidPath_ path = false := by simpa [Database.Valid] using hnew
  obtain ⟨taken, htaken⟩ : ∃ v, v = { w with holder := Function.update w.holder path (some i) } :=
    ⟨_, rfl⟩
  have hdead : taken.dead = w.dead := by rw [htaken]
  have hdb : taken.db = w.db := by rw [htaken]
  have halive' : i ∉ taken.dead := by rwa [hdead]
  have hnew' : ¬ taken.db.Valid path := by rwa [hdb]
  obtain ⟨v, hplace, hdead', hholder⟩ := ends_placeFrom depth halive' hnew' ht hheight
  have hbody := ends_unlessValid halive' (by rw [hdb, hinvalid]) hplace
  rw [htaken] at hbody
  refine ⟨v.release i path, ends_unlessValid halive hinvalid (ends_locked halive hfree hbody ?_), ?_, ?_⟩
  · rwa [hdead']
  · exact hdead'.trans hdead
  · show Function.update v.holder path _ = w.holder
    rw [hholder, htaken]
    simp [hfree]

/-- Adding a path that is there already. -/
theorem addToStore_valid {source : Bytes} (hvalid : w.db.Valid path) :
    (addToStore settings depth (infoOf path t.nar) source).IfReturns (exec settings i)
      (fun _ w' => w' = w) w := by
  refine ifReturns_call ?_
  rintro valid _ ⟨hfound | ⟨e, hthrown⟩, rfl⟩
  · obtain rfl : valid = true := by
      rw [Except.ok.inj hfound]
      exact hvalid
    exact Prog.ifReturns_ok.mpr rfl
  · cases hthrown

/-! ## A stream -/

/-- Paths have been added with their trees unless they were there before, and all else is as it
was. -/
structure Received (paths : List StorePath) (tree : StorePath → Tree) (w w' : World ι) : Prop where
  valid : ∀ q, w'.db.Valid q ↔ w.db.Valid q ∨ q ∈ paths
  stored : ∀ q ∈ paths, ¬ w.db.Valid q → Stored q w' (tree q)
  kept : ∀ q, w.db.Valid q ∨ q ∉ paths →
    w'.db.queryPathInfo q = w.db.queryPathInfo q ∧ w'.contents q = w.contents q

namespace Received

variable {v : World ι} {paths : List StorePath} {tree : StorePath → Tree}

omit [DecidableEq ι] in
theorem refl (tree : StorePath → Tree) (w : World ι) : Received [] tree w w :=
  ⟨by simp, by simp, fun _ _ => ⟨rfl, rfl⟩⟩

omit [DecidableEq ι] in
/-- One path that is new. -/
theorem added (h : Added path (tree path) w w') (hnew : ¬ w.db.Valid path) :
    Received [path] tree w w' := by
  obtain ⟨row, hrow, hhash, hsize, -⟩ := h.registered.row
  have hpos : (tree path).nar.length ≠ 0 := by simp [Tree.nar, encodeString, littleEndian_length]
  have hother : ∀ q, w.db.Valid q ∨ q ∉ [path] → q ≠ path := by
    rintro q hq rfl
    exact hq.elim hnew fun hnot => hnot List.mem_cons_self
  refine ⟨fun q => ?_, fun q hq _ => ?_, fun q hq => ⟨h.registered.other q (hother q hq), ?_⟩⟩
  · rw [h.registered.valid_iff, List.mem_singleton]
    rfl
  · obtain rfl := List.mem_singleton.mp hq
    exact ⟨by rw [h.contents, Function.update_self], row, hrow, hhash, hsize.trans (if_pos hpos)⟩
  · rw [h.contents, Function.update_of_ne (hother q hq)]

omit [DecidableEq ι] in
/-- One path that is not. -/
theorem present (hvalid : w.db.Valid path) : Received [path] tree w w := by
  refine ⟨fun q => ?_, fun q hq hnew => ?_, fun _ _ => ⟨rfl, rfl⟩⟩
  · rw [List.mem_singleton]
    refine ⟨Or.inl, ?_⟩
    rintro (hq | rfl)
    · exact hq
    · exact hvalid
  · obtain rfl := List.mem_singleton.mp hq
    exact absurd hvalid hnew

omit [DecidableEq ι] in
/-- One more path. -/
theorem cons (h : Received [path] tree w v) (hrest : Received paths tree v w') :
    Received (path :: paths) tree w w' := by
  have hsame : ∀ q, w.db.Valid q ∨ q ∉ path :: paths →
      (w.db.Valid q ∨ q ∉ [path]) ∧ (v.db.Valid q ∨ q ∉ paths) := by
    rintro q (hvalid | hnot)
    · exact ⟨Or.inl hvalid, Or.inl ((h.valid q).mpr (Or.inl hvalid))⟩
    · rw [List.mem_cons, not_or] at hnot
      exact ⟨Or.inr (by simpa using hnot.1), Or.inr hnot.2⟩
  refine ⟨fun q => ?_, fun q hq hnew => ?_, fun q hq => ?_⟩
  · rw [hrest.valid, h.valid, List.mem_singleton, List.mem_cons, or_assoc]
  · by_cases hpath : q = path
    · subst hpath
      have hstored := h.stored q List.mem_cons_self hnew
      obtain ⟨hrow, hcontents⟩ := hrest.kept q (Or.inl hstored.valid)
      obtain ⟨htree, row, hquery, hfields⟩ := hstored
      exact ⟨hcontents.trans htree, row, hrow.trans hquery, hfields⟩
    · refine hrest.stored q ((List.mem_cons.mp hq).resolve_left hpath) fun hvalid => ?_
      rcases (h.valid q).mp hvalid with hold | hsingle
      · exact hnew hold
      · exact hpath (List.mem_singleton.mp hsingle)
  · obtain ⟨hfirst, hsecond⟩ := hsame q hq
    obtain ⟨hrow, hcontents⟩ := h.kept q hfirst
    obtain ⟨hrow', hcontents'⟩ := hrest.kept q hsecond
    exact ⟨hrow'.trans hrow, hcontents'.trans hcontents⟩

end Received

/-- What `exportPaths` writes of paths with these trees. -/
def stream (cfg : StoreDirConfig) (tree : StorePath → Tree) (paths : List StorePath) : Bytes :=
  paths.flatMap (fun p => record cfg p (tree p)) ++ littleEndian 0

omit [Sha256] in
theorem stream_cons (cfg : StoreDirConfig) (tree : StorePath → Tree) (p : StorePath)
    (paths : List StorePath) (rest : Bytes) : stream cfg tree (p :: paths) ++ rest =
      record cfg p (tree p) ++ (stream cfg tree paths ++ rest) := by
  rw [stream, List.flatMap_cons, List.append_assoc, List.append_assoc, stream, List.append_assoc]

omit [Sha256] in
theorem stream_nil (cfg : StoreDirConfig) (tree : StorePath → Tree) :
    stream cfg tree [] = littleEndian 0 := by
  rw [stream, List.flatMap_nil, List.nil_append]

omit [Sha256] in
/-- Every path takes a record of its own. -/
theorem length_lt_stream (cfg : StoreDirConfig) (tree : StorePath → Tree) (paths : List StorePath) :
    paths.length < (stream cfg tree paths).length := by
  induction paths with
  | nil =>
      rw [stream_nil, littleEndian_length]
      decide
  | cons p paths ih =>
      have hcons := congrArg List.length (stream_cons cfg tree p paths [])
      rw [List.append_nil, List.append_nil, List.length_append, record, List.length_append,
        littleEndian_length] at hcons
      rw [List.length_cons]
      omega

/-- A path that can be sent, and its tree. -/
structure Sendable (cfg : StoreDirConfig) (path : StorePath) (t : Tree) : Prop where
  representable : t.Representable
  filesFit : t.FilesFit
  height : t.height ≤ narMaxDepth
  path_eq : cfg.makeContentAddressedPath path.name (hashString t.nar) = .ok path
  length : (cfg.printStorePath path).length < 2 ^ 64

theorem Sendable.nextRecord {reads : ReadSizes} (h : Sendable settings.toStoreDirConfig path t)
    (rest : Bytes) : nextRecord settings reads (record settings.toStoreDirConfig path t ++ rest) =
      .ok (some (infoOf path t.nar, t.nar), rest) :=
  nextRecord_of_written (written_record h.representable h.filesFit h.height h.path_eq h.length) rest

variable {reads : ReadSizes} {tree : StorePath → Tree} {paths : List StorePath} {rest : Bytes}

theorem importRounds_returns (rounds : Nat) (hrounds : paths.length < rounds)
    (hsendable : ∀ p ∈ paths, Sendable settings.toStoreDirConfig p (tree p)) :
    (importRounds settings reads depth rounds
      (stream settings.toStoreDirConfig tree paths ++ rest)).IfReturns (exec settings i)
      (fun r w' => r = (paths, rest) ∧ Received paths tree w w') w := by
  induction paths generalizing rounds w with
  | nil =>
      obtain ⟨rounds, rfl⟩ : ∃ n, rounds = n + 1 := ⟨rounds - 1, by omega⟩
      rw [stream_nil, importRounds_end]
      exact Prog.ifReturns_ok.mpr ⟨rfl, .refl tree w⟩
  | cons p paths ih =>
      obtain ⟨rounds, rfl⟩ : ∃ n, rounds = n + 1 := ⟨rounds - 1, by omega⟩
      have hsend := hsendable p List.mem_cons_self
      have hadd : (addToStore settings depth (infoOf p (tree p).nar) (tree p).nar).IfReturns
          (exec settings i) (fun _ v => Received [p] tree w v) w := by
        by_cases hvalid : w.db.Valid p
        · refine (addToStore_valid hvalid).mono ?_
          rintro _ _ rfl
          exact .present hvalid
        · exact (addToStore_returns hvalid hsend.representable hsend.height).mono
            fun _ _ hadded => .added hadded hvalid
      rw [stream_cons, importRounds_next rounds (hsend.nextRecord _)]
      refine Prog.ifReturns_bind.mpr (hadd.mono fun _ v hfirst => ?_)
      refine Prog.ifReturns_bind.mpr ((ih rounds (by simpa using hrounds)
        (fun q hq => hsendable q (List.mem_cons_of_mem p hq))).mono ?_)
      rintro _ w' ⟨rfl, hrest⟩
      exact Prog.ifReturns_ok.mpr ⟨rfl, hfirst.cons hrest⟩

theorem importRounds_ends (rounds : Nat) (hrounds : paths.length < rounds)
    (hsendable : ∀ p ∈ paths, Sendable settings.toStoreDirConfig p (tree p)) (halive : i ∉ w.dead)
    (hfree : ∀ p ∈ paths, w.holder p = none) :
    ∃ w', Prog.Ends (exec settings i) w (importRounds settings reads (depth + 1) rounds
      (stream settings.toStoreDirConfig tree paths ++ rest)) (.ok (paths, rest)) w' := by
  induction paths generalizing rounds w with
  | nil =>
      obtain ⟨rounds, rfl⟩ : ∃ n, rounds = n + 1 := ⟨rounds - 1, by omega⟩
      rw [stream_nil, importRounds_end]
      exact ⟨w, .refl _ _⟩
  | cons p paths ih =>
      obtain ⟨rounds, rfl⟩ : ∃ n, rounds = n + 1 := ⟨rounds - 1, by omega⟩
      have hsend := hsendable p List.mem_cons_self
      obtain ⟨v, hadd, hdead, hholder⟩ : ∃ v, Prog.Ends (exec settings i) w
          (addToStore settings (depth + 1) (infoOf p (tree p).nar) (tree p).nar) (.ok ()) v ∧
          v.dead = w.dead ∧ v.holder = w.holder := by
        by_cases hvalid : w.db.Valid p
        · exact ⟨w, ends_unlessValid_of_valid halive hvalid, rfl, rfl⟩
        · exact addToStore_ends depth halive (hfree p List.mem_cons_self) hvalid
            hsend.representable hsend.height
      obtain ⟨w', hrest⟩ := ih rounds (by simpa using hrounds)
        (fun q hq => hsendable q (List.mem_cons_of_mem p hq)) (by rwa [hdead])
        fun q hq => by rw [hholder, hfree q (List.mem_cons_of_mem p hq)]
      rw [stream_cons, importRounds_next rounds (hsend.nextRecord _)]
      exact ⟨w', hadd.bind (hrest.bind (.refl _ _))⟩

end Add

/-! ## Sending -/

section Send

open Host

/-- The sizes that a file system has room for do not overflow in `alignUp`. -/
theorem filesFit_of_holds {fs : FileSystem} {p : Path} {t : Tree} (h : fs.Holds p t)
    (ht : InOrder t) (hlimits : fs.WithinLimits) : t.FilesFit := by
  induction t using Tree.inductionOn generalizing p with
  | regular executable contents =>
      obtain ⟨i, hnode, hinode⟩ := FileSystem.leaf_of_label h.root (by simp [treeLabel])
      have hsize := hlimits.size p i contents hnode (Inode.kind_of_label_regular hinode).1
      exact .regular executable (by omega)
  | symlink target => exact .symlink target
  | directory entries ih =>
      cases ht with
      | directory hsorted hchildren =>
          exact .directory fun e he => ih e he (h.child hsorted he) (hchildren e he)

variable [Sha256] {settings : Settings} {reads : ReadSizes} {config : LocalStoreConfig}
  {fs : FileSystem} {kernel : Kernel} {db : Database} {path : StorePath} {t : Tree} {x : Bytes}
  {e : Error}

theorem sendable_of_intact (hlimits : fs.WithinLimits) (h : Exporting.Intact config fs db path t)
    (hlength : (config.printStorePath path).length < 2 ^ 64) :
    Sendable config.toStoreDirConfig path t :=
  ⟨h.archives.holds.representable h.archives.inOrder hlimits,
    filesFit_of_holds h.archives.holds h.archives.inOrder hlimits, h.archives.height, h.path_eq, hlength⟩

/-! ### Sending that fails -/

omit [Sha256] in
theorem writeStorePathSet_eq (paths : List StorePath) : writeStorePathSet config paths =
    ⟨littleEndian paths.length ++ paths.flatMap fun p => encodeString (config.printStorePath p),
      .ok ()⟩ := by
  have hloop : (paths.forM fun path => writeString (config.printStorePath path)) =
      (⟨paths.flatMap fun p => encodeString (config.printStorePath p), .ok ⟨⟩⟩ : Writer PUnit) := by
    induction paths with
    | nil => rfl
    | cons p paths ih =>
        rw [List.forM_eq_forM] at ih ⊢
        rw [List.forM_cons, ih, writeString_eq, Emit.bind_ok, Emit.prepend_mk, List.flatMap_cons]
  rw [writeStorePathSet, hloop, writeNum_eq, Emit.bind_ok, Emit.prepend_mk]

omit [Sha256] in
theorem queryPathInfo_emitted : (Exporting.queryPathInfo config db path).emitted = [] := by
  unfold Exporting.queryPathInfo
  split <;> rfl

/-- What `exportPath` writes: nothing, a part of an archive, or an archive; and the trailer after
the archive if it does not throw. -/
theorem exportPath_cases (config : LocalStoreConfig) (fs : FileSystem) (kernel : Kernel)
    (db : Database) (path : StorePath) :
    (∃ e, exportPath config fs kernel db path = ⟨[], .error e⟩) ∨
      (∃ bs e, dumpPath fs kernel (config.toRealPath path) = ⟨bs, .error e⟩ ∧
        exportPath config fs kernel db path = ⟨bs, .error e⟩) ∨
      ∃ bs, dumpPath fs kernel (config.toRealPath path) = ⟨bs, .ok ()⟩ ∧
        ((∃ e, exportPath config fs kernel db path = ⟨bs, .error e⟩) ∨
          ∃ info, Exporting.queryPathInfo config db path = ⟨[], .ok info⟩ ∧
            exportPath config fs kernel db path = ⟨bs ++ (littleEndian exportMagic ++
              (encodeString (config.printStorePath path) ++ (littleEndian info.references.length ++
                info.references.flatMap fun p => encodeString (config.printStorePath p)))), .ok ()⟩) := by
  have hquery : (Exporting.queryPathInfo config db path).emitted = [] := queryPathInfo_emitted
  rcases hinfo : Exporting.queryPathInfo config db path with ⟨out, e' | info⟩
  all_goals
    rw [hinfo] at hquery
    obtain rfl : out = [] := hquery
  · exact Or.inl ⟨e', by rw [exportPath, hinfo, Emit.bind_error]⟩
  · have hexport := exportPath.eq_1 config fs kernel db path
    rw [hinfo, Emit.bind_ok, Emit.prepend_nil] at hexport
    rcases hdump : dumpPath fs kernel (config.toRealPath path) with ⟨bs, e' | ⟨⟩⟩
    · exact Or.inr (Or.inl ⟨bs, e', rfl, by rw [hexport, hdump, Emit.bind_error]⟩)
    · simp only [hdump, Emit.bind_ok] at hexport
      refine Or.inr (Or.inr ⟨bs, rfl, ?_⟩)
      by_cases hchanged : hashString bs ≠ info.narHash ∧ info.narHash ≠ nullHash
      · rw [if_pos hchanged, Emit.throw_def, Emit.prepend_mk, List.append_nil] at hexport
        exact Or.inl ⟨_, hexport⟩
      · rw [if_neg hchanged] at hexport
        refine Or.inr ⟨info, rfl, ?_⟩
        rw [hexport]
        simp only [writeNum_eq, writeString_eq, writeStorePathSet_eq, Emit.bind_ok, Emit.prepend_mk]

/-- The record that is read where one has been started. -/
theorem record_of_one {cfg : StoreDirConfig} {bs rest : Bytes} {r : Option (ValidPathInfo × Bytes)}
    (h : Written cfg bs r) (heq : littleEndian 1 ++ x = bs ++ rest) :
    ∃ saved s, Delimited saved ∧ s.length < 2 ^ 64 ∧ r ≠ none ∧
      x = saved ++ (littleEndian exportMagic ++ (encodeString s ++ (littleEndian 0 ++ rest))) := by
  cases h with
  | stop =>
      have hone := (reads_readLongLong (ω := Empty) (n := 1) (by decide)).unique
        (reads_readLongLong (n := 0) (by decide)) heq
      exact absurd hone.1 (by decide)
  | @record saved s path hsaved hlength hs hpath =>
      rw [List.append_assoc] at heq
      refine ⟨saved, s, hsaved, hlength, Option.some_ne_none _, ?_⟩
      rw [List.append_cancel_left heq, List.append_assoc, List.append_assoc, List.append_assoc]

/-- Nothing is read of a path whose export has thrown. -/
theorem not_written_of_failed (hlimits : fs.WithinLimits) {bs rest : Bytes}
    {r : Option (ValidPathInfo × Bytes)} {cfg : StoreDirConfig}
    (hexport : exportPath config fs kernel db path = ⟨x, .error e⟩) (h : Written cfg bs r)
    (heq : littleEndian 1 ++ x = bs ++ rest) : False := by
  obtain ⟨saved, s, hsaved, -, -, rfl⟩ := record_of_one h heq
  -- something follows the archive
  have hmore : ∀ y z : Bytes, littleEndian exportMagic ++ y ++ z ≠ [] := by
    intro y z hnil
    have hlength := congrArg List.length hnil
    rw [List.length_append, List.length_append, littleEndian_length, List.length_nil] at hlength
    omega
  rcases exportPath_cases config fs kernel db path with ⟨e', hnil⟩ | ⟨bs', e', hdump, hcut⟩ |
    ⟨bs', hdump, ⟨e', hwhole⟩ | ⟨info, -, hok⟩⟩
  · rw [hexport, Emit.mk.injEq] at hnil
    obtain ⟨-, hmagic⟩ := List.append_eq_nil_iff.mp hnil.1
    exact hmore _ [] (by rw [List.append_nil, hmagic])
  · rw [hexport, Emit.mk.injEq] at hcut
    obtain ⟨rfl, -⟩ := hcut
    obtain ⟨u, hu, left, -, hnar⟩ := dumpPath_cut hlimits hdump
    rw [List.append_assoc] at hnar
    obtain ⟨-, hrest⟩ := hsaved.unique hu ((List.append_nil _).trans hnar.symm)
    exact hmore _ left hrest.symm
  · rw [hexport, Emit.mk.injEq] at hwhole
    obtain ⟨rfl, -⟩ := hwhole
    obtain ⟨u, hu, horder, -, hnar⟩ := holds_of_dumpPath hdump
    obtain ⟨-, hrest⟩ := hsaved.unique (hu.representable horder hlimits)
      ((List.append_nil _).trans hnar.symm)
    exact hmore _ [] (by rw [List.append_nil, hrest])
  · rw [hexport, Emit.mk.injEq] at hok
    cases hok.2

/-- What is read of a path that has been exported is what was written of it. -/
theorem rest_of_exported (hlimits : fs.WithinLimits) {bs more rest : Bytes}
    {r : Option (ValidPathInfo × Bytes)} {cfg : StoreDirConfig}
    (hexport : exportPath config fs kernel db path = ⟨x, .ok ()⟩)
    (hlength : (config.printStorePath path).length < 2 ^ 64)
    (hcount : ∀ info, Exporting.queryPathInfo config db path = ⟨[], .ok info⟩ → info.references.length < 2 ^ 64)
    (h : Written cfg bs r) (heq : littleEndian 1 ++ (x ++ more) = bs ++ rest) :
    r ≠ none ∧ rest = more := by
  obtain ⟨saved, s, hsaved, hs, hsome, hbytes⟩ := record_of_one h heq
  rcases exportPath_cases config fs kernel db path with ⟨e', hthrown⟩ | ⟨bs', e', -, hthrown⟩ |
    ⟨bs', hdump, ⟨e', hthrown⟩ | ⟨info, hinfo, hok⟩⟩
  iterate 3
    rw [hexport, Emit.mk.injEq] at hthrown
    cases hthrown.2
  rw [hexport, Emit.mk.injEq] at hok
  obtain ⟨rfl, -⟩ := hok
  obtain ⟨u, hu, horder, -, rfl⟩ := holds_of_dumpPath hdump
  rw [List.append_assoc] at hbytes
  obtain ⟨-, htrailer⟩ := hsaved.unique (hu.representable horder hlimits) hbytes
  rw [List.append_assoc] at htrailer
  have hstrings := List.append_cancel_left htrailer
  rw [List.append_assoc] at hstrings
  obtain ⟨-, hset⟩ := encodeString_append_inj hlength hs hstrings
  rw [List.append_assoc] at hset
  obtain ⟨hnone, hrest⟩ := (reads_readLongLong (ω := Empty) (hcount info hinfo)).unique
    (reads_readLongLong (by decide)) hset
  rw [List.length_eq_zero_iff.mp hnone, List.flatMap_nil, List.nil_append] at hrest
  exact ⟨hsome, hrest.symm⟩

theorem forM_exportPath_cons (p : StorePath) (paths : List StorePath) :
    ((p :: paths).forM fun path => do
      writeNum 1
      exportPath config fs kernel db path) =
      ((exportPath config fs kernel db p).prepend (littleEndian 1) >>= fun _ =>
        paths.forM fun path => do
          writeNum 1
          exportPath config fs kernel db path) := by
  rw [List.forM_eq_forM, List.forM_cons]
  rfl

/-- What has been written when an export throws is no stream. -/
theorem no_stream_of_failed (hlimits : fs.WithinLimits) {paths : List StorePath}
    (hlength : ∀ p ∈ paths, (config.printStorePath p).length < 2 ^ 64)
    (hcount : ∀ p ∈ paths, ∀ info, Exporting.queryPathInfo config db p = ⟨[], .ok info⟩ →
      info.references.length < 2 ^ 64)
    (hexport : (paths.forM fun path => do
      writeNum 1
      exportPath config fs kernel db path) = ⟨x, .error e⟩) :
    ∀ ps left, ¬ Stream settings reads x ps left := by
  induction paths generalizing x with
  | nil => cases hexport
  | cons p paths ih =>
      have hnext : ∀ {y : Bytes} {r rest}, nextRecord settings reads (littleEndian 1 ++ y) = .ok (r, rest) →
          ∃ bs, littleEndian 1 ++ y = bs ++ rest ∧ Written settings.toStoreDirConfig bs r :=
        fun h => written_of_nextRecord h
      rw [forM_exportPath_cons] at hexport
      rcases hp : exportPath config fs kernel db p with ⟨y, e' | ⟨⟩⟩
      · rw [hp, Emit.prepend_mk, Emit.bind_error, Emit.mk.injEq] at hexport
        obtain ⟨rfl, -⟩ := hexport
        intro ps left hstream
        cases hstream with
        | stop h | record h _ =>
            obtain ⟨bs, heq, hwritten⟩ := hnext h
            exact not_written_of_failed hlimits hp hwritten heq
      · rw [hp, Emit.prepend_mk, Emit.bind_ok] at hexport
        rcases hrest : (paths.forM fun path => do
          writeNum 1
          exportPath config fs kernel db path) with ⟨more, result⟩
        rw [hrest, Emit.prepend_mk, Emit.mk.injEq] at hexport
        obtain ⟨rfl, rfl⟩ := hexport
        have hmore := ih (fun q hq => hlength q (List.mem_cons_of_mem p hq))
          (fun q hq => hcount q (List.mem_cons_of_mem p hq)) hrest
        intro ps left hstream
        rw [List.append_assoc] at hstream
        cases hstream with
        | stop h =>
            obtain ⟨bs, heq, hwritten⟩ := hnext h
            exact (rest_of_exported hlimits hp (hlength p List.mem_cons_self)
              (hcount p List.mem_cons_self) hwritten heq).1 rfl
        | record h htail =>
            obtain ⟨bs, heq, hwritten⟩ := hnext h
            obtain ⟨-, rfl⟩ := rest_of_exported hlimits hp (hlength p List.mem_cons_self)
              (hcount p List.mem_cons_self) hwritten heq
            exact hmore _ _ htail

end Send

namespace Example

open Host

def sender : LocalStoreConfig := ⟨.nixStore, [], false⟩

/-- A store with an empty file at the path. -/
def storeWith (path : StorePath) : FileSystem where
  node p := if p = sender.toRealPath path then some (.leaf 0)
    else if p ∈ [[], [str "nix"], sender.realStoreDir] then some (.directory 0o755 0) else none
  dom := [sender.toRealPath path, [], [str "nix"], sender.realStoreDir]
  inode _ := ⟨.regular [], 0o444, 1⟩
  nextIno := 1
  mem_dom p hp := by
    by_contra hnot
    rw [List.mem_cons, not_or] at hnot
    exact hp (by rw [if_neg hnot.1, if_neg hnot.2])
  parent_dir p hne hp := by
    have hdir : ∀ q ∈ [[], [str "nix"], sender.realStoreDir], ∃ mode mtime,
        (if q = sender.toRealPath path then some (Node.leaf 0)
          else if q ∈ [[], [str "nix"], sender.realStoreDir] then some (.directory 0o755 0) else none) =
          some (.directory mode mtime) := by
      intro q hq
      have hfile : q ≠ sender.toRealPath path := by
        rintro rfl
        simp [LocalStoreConfig.toRealPath, LocalStoreConfig.realStoreDir, sender] at hq
      exact ⟨0o755, 0, by rw [if_neg hfile, if_pos hq]⟩
    by_cases hfile : p = sender.toRealPath path
    · refine hdir _ ?_
      rw [hfile, LocalStoreConfig.toRealPath, parentDir_append]
      simp
    · rw [if_neg hfile] at hp
      by_cases hmem : p ∈ [[], [str "nix"], sender.realStoreDir]
      · have hparents : ∀ q ∈ [[], [str "nix"], sender.realStoreDir],
            parentDir q ∈ [[], [str "nix"], sender.realStoreDir] := by decide
        exact hdir _ (hparents p hmem)
      · rw [if_neg hmem] at hp
        exact absurd rfl hp
  ino_lt p i hp := by
    split at hp
    · cases hp
      decide
    · split at hp <;> cases hp

theorem archives_storeWith (path : StorePath) :
    (storeWith path).Archives (sender.toRealPath path) (.regular false []) := by
  have hlabel : (storeWith path).label (sender.toRealPath path) = some (.regular false []) := by
    simp only [FileSystem.label, storeWith, if_true]
    rfl
  exact ⟨FileSystem.Holds.leaf hlabel (by simp [treeLabel]), .regular _ _,
    by simp [Util.Tree.height, narMaxDepth]⟩

theorem validName_of_spelled {s : Bytes} (h : Spelled 45 s) : ValidName s := by
  have hslash := noSlash_of_spelled h (by decide)
  obtain ⟨hash, name, rfl, hlength, hhash, hname⟩ := h
  have hshort : name.length ≤ MaxPathLen := by
    by_contra hlong
    rw [checkName, if_neg (by rintro rfl; simp at hlong), if_pos (by omega)] at hname
    cases hname
  simp only [HashLen, MaxPathLen] at hlength hshort
  have hlong : ∀ short : Bytes, short.length ≤ 2 → hash ++ 45 :: name ≠ short := by
    rintro short hle rfl
    simp at hle
    omega
  refine ⟨hlong [] (by decide), by simp; omega, hlong _ (by decide), hlong _ (by decide), hslash,
    fun hnul => ?_⟩
  rcases List.mem_append.mp hnul with hmem | hmem
  · exact absurd (hhash 0 hmem) (by decide)
  · rcases List.mem_cons.mp hmem with hdash | hmem
    · cases hdash
    · have hchar := isNameChar_of_checkName hname hmem
      revert hchar
      decide

theorem withinLimits_storeWith {path : StorePath} (h : ValidName path.baseName) :
    (storeWith path).WithinLimits := by
  refine ⟨fun p name hnode => ?_, fun p i target _ => InodeKind.noConfusion,
    fun p i contents _ hkind => ?_⟩
  · have hmem := (storeWith path).mem_dom (p ++ [name]) hnode
    simp only [storeWith, LocalStoreConfig.toRealPath, LocalStoreConfig.realStoreDir, sender,
      List.mem_cons, List.not_mem_nil, or_false] at hmem
    rcases hmem with heq | heq | heq | heq
    · obtain ⟨-, hname⟩ := List.append_inj' heq rfl
      rw [(List.cons.inj hname).1]
      exact h
    · simp at heq
    · have hlast := congrArg List.getLast? heq
      simp at hlast
      rw [hlast]
      decide
    · have hlast := congrArg List.getLast? heq
      simp at hlast
      rw [hlast]
      decide
  · cases hkind
    decide

/-- The path is registered as an empty file. -/
def databaseWith (path : StorePath) (hash : Hash) : Database where
  validPaths := [⟨1, path, hash, 0, some (Tree.regular false []).nar.length, none⟩]
  refs := []
  path_unique := List.nodup_singleton _
  id_unique := List.nodup_singleton _
  referrer_valid := by simp
  reference_valid := by simp

theorem queryReferences_databaseWith (path : StorePath) (hash : Hash) (row : ValidPathRow) :
    (databaseWith path hash).queryReferences row = [] := by
  simp [Database.queryReferences, databaseWith]

theorem queryPathInfo_databaseWith (path : StorePath) (hash : Hash) :
    (databaseWith path hash).queryPathInfo path =
      some ⟨1, path, hash, 0, some (Tree.regular false []).nar.length, none⟩ := by
  simp [Database.queryPathInfo, databaseWith]

theorem count_databaseWith {path p : StorePath} {hash : Hash} {info : ValidPathInfo}
    (h : Exporting.queryPathInfo sender (databaseWith path hash) p = ⟨[], .ok info⟩) :
    info.references.length < 2 ^ 64 := by
  have hinternal : (databaseWith path hash).queryPathInfoInternal sender.toStoreDirConfig p =
      .ok (some info) := by
    unfold Exporting.queryPathInfo at h
    split at h
    · obtain ⟨⟩ := h
      assumption
    · cases h
    · cases h
  unfold Database.queryPathInfoInternal at hinternal
  split at hinternal
  · cases hinternal
  · split at hinternal
    · cases hinternal
    · cases hinternal
      rw [queryReferences_databaseWith, List.length_nil]
      exact Nat.two_pow_pos 64

/-- Another path. -/
def missing : StorePath := ⟨str "00000000000000000000000000000000-y", by decide, by decide⟩

theorem exportPath_missing [Sha256] {path : StorePath} (hash : Hash) (h : path.name = str "x") :
    ∃ e, exportPath sender (storeWith path) default (databaseWith path hash) missing = ⟨[], .error e⟩ := by
  have hne : path ≠ missing := by
    rintro rfl
    revert h
    decide
  have hquery : (databaseWith path hash).queryPathInfo missing = none := by
    simp [Database.queryPathInfo, databaseWith, hne]
  refine ⟨⟨.invalidPath, "path '%s' is not valid", [sender.printStorePath missing]⟩, ?_⟩
  rw [exportPath, Exporting.queryPathInfo, Database.queryPathInfoInternal, hquery]
  rfl

/-- There are a hash function and a path that is that of an empty file. -/
theorem intact_storeWith : ∃ (_ : Sha256) (path : StorePath),
    Exporting.Intact sender (storeWith path) (databaseWith path (hashString (Tree.regular false []).nar)) path
      (.regular false []) ∧ (storeWith path).WithinLimits ∧ path.name = str "x" ∧
      (sender.printStorePath path).length < 2 ^ 64 := by
  let sha256 : Sha256 := .ofTable [] fun _ h => by cases h
  obtain ⟨path, hpath, hspelled, -⟩ := sender.makeStorePath_of_checkName (str "source")
    (hashString (Tree.regular false []).nar).base16 (show checkName (str "x") = .ok () by decide)
  have hname : path.name = str "x" := StoreDirConfig.name_of_makeStorePath _ hpath
  have hvalid := validName_of_spelled hspelled
  refine ⟨sha256, path, ⟨archives_storeWith path, ⟨_, queryPathInfo_databaseWith path _, rfl, rfl,
    queryReferences_databaseWith path _ _⟩, ?_⟩, withinLimits_storeWith hvalid, hname, ?_⟩
  · rw [hname]
    exact hpath
  · have hbound := hvalid.bounded
    simp only [StoreDirConfig.printStorePath, List.length_append]
    have hdir : (CanonPath.abs sender.storeDir ++ str "/").length < 2 ^ 63 := by decide
    rw [List.length_append] at hdir
    omega

end Example

/-- The paths that are exported intact are what another store has after an import, with the trees
they had.  Nothing but a failure keeps an import from returning them if nobody else has their
locks. -/
theorem export_import [Sha256] {config : LocalStoreConfig} {fs : Host.FileSystem} {db : Database}
    {settings : Settings} {ι : Type} [DecidableEq ι] {w : World ι} {paths : List StorePath}
    {tree : StorePath → Tree} (kernel : Host.Kernel) (reads : ReadSizes) (i : ι)
    (hstore : settings.toStoreDirConfig = config.toStoreDirConfig) (hlimits : fs.WithinLimits)
    (hintact : ∀ p ∈ paths, Exporting.Intact config fs db p (tree p))
    (hlength : ∀ p ∈ paths, (config.printStorePath p).length < 2 ^ 64) :
    ∃ bytes, exportPaths config fs kernel db paths = ⟨bytes, .ok ()⟩ ∧
      (∀ depth r w', Prog.Ends (exec settings i) w (importVerified settings reads depth bytes) (.ok r) w' →
        r = (paths, []) ∧ Received paths tree w w') ∧
      (i ∉ w.dead → (∀ p ∈ paths, w.holder p = none) → ∀ depth, ∃ w', Prog.Ends (exec settings i) w
        (importVerified settings reads (depth + 1) bytes) (.ok (paths, [])) w') := by
  have hsendable : ∀ p ∈ paths, Sendable settings.toStoreDirConfig p (tree p) := by
    rw [hstore]
    exact fun p hp => sendable_of_intact hlimits (hintact p hp) (hlength p hp)
  have hrounds := length_lt_stream settings.toStoreDirConfig tree paths
  have hwhole : stream settings.toStoreDirConfig tree paths ++ [] =
      stream settings.toStoreDirConfig tree paths := List.append_nil _
  refine ⟨stream settings.toStoreDirConfig tree paths, ?_, fun depth r w' hends => ?_,
    fun halive hfree depth => ?_⟩
  · rw [exportPaths_intact hintact, stream, hstore]
  · have hreturns : (importVerified settings reads depth _).IfReturns (exec settings i) _ w :=
      hwhole ▸ importRounds_returns _ hrounds hsendable
    exact hreturns.ends hends
  · have hends : ∃ w', Prog.Ends (exec settings i) w (importVerified settings reads (depth + 1) _) _ w' :=
      hwhole ▸ importRounds_ends _ hrounds hsendable halive hfree
    exact hends

theorem export_import_example : ∃ (_ : Sha256) (path : StorePath) (w' : World Unit) (bytes : Bytes),
    exportPaths Example.sender (Example.storeWith path) default
      (Example.databaseWith path (hashString (Tree.regular false []).nar)) [path] = ⟨bytes, .ok ()⟩ ∧
    Prog.Ends (exec Example.settings ()) (Example.emptyWorld Unit)
      (importVerified Example.settings .whole 1 bytes) (.ok ([path], [])) w' ∧
    Received [path] (fun _ => .regular false []) (Example.emptyWorld Unit) w' := by
  obtain ⟨sha256, path, hintact, hlimits, -, hlength⟩ := Example.intact_storeWith
  have hintacts : ∀ p ∈ [path], Exporting.Intact Example.sender (Example.storeWith path)
      (Example.databaseWith path (hashString (Tree.regular false []).nar)) p
      ((fun _ => .regular false [] : StorePath → Tree) p) := by
    simpa using hintact
  obtain ⟨bytes, hexport, hreceived, hends⟩ := export_import (w := Example.emptyWorld Unit) default
    .whole () (show Example.settings.toStoreDirConfig = Example.sender.toStoreDirConfig from rfl) hlimits
    hintacts (by simpa using hlength)
  obtain ⟨w', hrun⟩ := hends (by simp [Example.emptyWorld]) (fun _ _ => rfl) 0
  exact ⟨sha256, path, w', bytes, hexport, hrun, (hreceived 1 _ w' hrun).2⟩

end Adding
end Store
end Archinix
