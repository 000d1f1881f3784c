import Archinix.Host.DumpPath
import Archinix.Store.AddToStore

/-!
# The store path of a tree

The path that `addToStoreFromDump` returns is that of the bytes it has read, whatever its
calls do beside (`addToStoreFromDump_meets`), and nothing but a failure keeps it from
returning (`addToStoreFromDump_ends`).

`path_of_content` puts this together with what a dump depends on.
-/

namespace Archinix
namespace Store
namespace Adding

open Foundation Util Prog

/-! ## What the answers say -/

section Answers

variable [Sha256] {settings : Settings} {ι : Type} [DecidableEq ι] {i : ι} {w w' : World ι}

/-- What an answer says about the bytes read. -/
def Answer : (r : Request) → Except Exception r.Val → Prop
  | .restorePath _ source, .ok (writes, rest) => ∃ t : Tree, t.Representable ∧
      t.height ≤ narMaxDepth ∧ writes.flatten = t.nar ∧ source = t.nar ++ rest
  | .finishHash writes, .ok result => result = hashSink writes.flatten
  | _, _ => True

theorem answer_of_exec {r : Request} {x : Except Exception r.Val} (h : exec settings i r w x w') :
    Answer r x := by
  cases r with
  | restorePath place source =>
      rcases h.2 with ⟨reads, t, rest, writes, hparse, hsource, rfl, -⟩ | ⟨⟨e, rfl⟩, -⟩
      · obtain ⟨u, hu, hrepresentable, hheight, hnar⟩ := nar_of_parseIntoMemory hparse
        obtain rfl := Option.some.inj hu
        exact ⟨t, hrepresentable, hheight, List.append_cancel_right (hsource.symm.trans hnar), hnar⟩
      · trivial
  | finishHash writes =>
      rcases h.2.1 with ⟨result, hresult, rfl⟩ | ⟨e, rfl⟩
      · exact AsyncHashSink.mayReturn_iff.mp hresult
      · trivial
  | _ => trivial

/-- What the answers say, of a program that holds nothing. -/
def Answers : Contract Requests Unit where
  pre _ _ := True
  post r _ x _ := Answer r x
  fork _ _ _ _ := False
  join _ _ := True

theorem meets_any {α : Type} (p : Prog Requests α) :
    p.Meets Answers True (fun _ _ => True) () := by
  induction p with
  | done e => trivial
  | op o k ih => exact ⟨trivial, fun x _ _ => ih x⟩
  | fork t => exact isEmptyElim t
  | join k ih => exact fun _ _ => ih
  | spin => trivial

end Answers

/-! ## The path of what was read -/

section Path

variable [Sha256] {settings : Settings} {depth : Nat} {source name : Bytes} {p : StorePath}

/-- The source begins with an archive, and the path is that of this archive. -/
def Addressed (settings : Settings) (source name : Bytes) (p : StorePath) : Prop :=
  ∃ (t : Tree) (rest : Bytes), t.Representable ∧ t.height ≤ narMaxDepth ∧ source = t.nar ++ rest ∧
    settings.makeContentAddressedPath name (hashString t.nar) = .ok p

theorem Addressed.of_nar {t : Tree} {rest : Bytes} (ht : t.Representable)
    (hheight : t.height ≤ narMaxDepth) (h : Addressed settings (t.nar ++ rest) name p) :
    settings.makeContentAddressedPath name (hashString t.nar) = .ok p := by
  obtain ⟨u, rest', hu, huheight, hsource, hp⟩ := h
  have hparse := parseIntoMemory_nar [] .whole ht hheight rest
  rw [hsource, parseIntoMemory_nar [] .whole hu huheight rest'] at hparse
  simp only [Except.ok.injEq, Prod.mk.injEq, Option.some.injEq] at hparse
  rwa [← hparse.1]

theorem Addressed.unique {q : StorePath} (hp : Addressed settings source name p)
    (hq : Addressed settings source name q) : p = q := by
  obtain ⟨t, rest, ht, hheight, rfl, hpath⟩ := hp
  exact Except.ok.inj (hpath.symm.trans (hq.of_nar ht hheight))

/-- The returned path is that of the bytes read. -/
theorem addToStoreFromDump_meets (settings : Settings) (depth : Nat) (source name : Bytes) :
    (addToStoreFromDump settings depth source name).Meets Answers True
      (fun x _ => ∀ p, x = .ok p → Addressed settings source name p) () := by
  -- errors have no path
  have hthrown : ∀ (e : Exception) p, Except.error e = .ok p → Addressed settings source name p :=
    fun e p hp => by cases hp
  refine meets_call trivial (fun acl _ _ => ?_) fun e _ _ => hthrown e
  refine meets_call trivial (fun _ _ _ => ?_) fun e _ _ => hthrown e
  apply meets_finally'.mpr
  have hclean : ∀ e : Except Exception StorePath, (∀ p, e = .ok p → Addressed settings source name p) →
      (call .deleteTempDir).Meets Answers True
        (fun _ _ => ∀ p, e = .ok p → Addressed settings source name p) () :=
    fun e he => ⟨trivial, fun _ _ _ => he⟩
  refine Meets.mono ?_ fun e _ => hclean e
  refine meets_call trivial ?_ fun e _ _ => hthrown e
  rintro ⟨writes, rest⟩ _ ⟨t, ht, hheight, hwrites, hsource⟩
  refine meets_call trivial (fun dumpHash _ hhash => ?_) fun e _ _ => hthrown e
  obtain rfl : dumpHash = hashSink t.nar := by
    rw [← hwrites]
    exact hhash
  refine meets_compute (fun dstPath hpath => ?_) fun e => hthrown _
  -- what follows may fail, but does not change the path
  refine meets_bind.mpr ((meets_any _).mono fun e _ _ => ?_)
  cases e with
  | error e => exact hthrown e
  | ok _ =>
      rintro p ⟨⟩
      exact ⟨t, rest, ht, hheight, hsource, hpath⟩

end Path

/-! ## Runs that return -/

section Returns

variable [Sha256] {settings : Settings} {depth : Nat} {ι : Type} [DecidableEq ι] {i : ι}
  {w w' : World ι} {name : Bytes} {p : StorePath} {body : Prog Requests Unit}
  {x : Except Exception Unit}

theorem ends_call {r : Request} {v : r.Val} (halive : i ∉ w.dead)
    (h : Does settings i r w (.ok v) w') : Ends (exec settings i) w (call r) (.ok v) w' :=
  .op ⟨halive, h⟩ (.refl _ _)

theorem ends_unlessValid_of_valid (halive : i ∉ w.dead) (hvalid : w.db.isValidPath_ p = true) :
    Ends (exec settings i) w (unlessValid p body) (.ok ()) w := by
  have hask : Does settings i (.isValidPath p) w (.ok true) w := ⟨Or.inl (by rw [hvalid]), rfl⟩
  exact (ends_call halive hask).bind (.refl _ _)

theorem ends_unlessValid (halive : i ∉ w.dead) (hvalid : w.db.isValidPath_ p = false)
    (hbody : Ends (exec settings i) w body x w') :
    Ends (exec settings i) w (unlessValid p body) x w' := by
  have hask : Does settings i (.isValidPath p) w (.ok false) w := ⟨Or.inl (by rw [hvalid]), rfl⟩
  exact (ends_call halive hask).bind hbody

theorem ends_locked (halive : i ∉ w.dead) (hfree : w.holder p = none)
    (hbody : Ends (exec settings i) { w with holder := Function.update w.holder p (some i) } body
      x w') (halive' : i ∉ w'.dead) :
    Ends (exec settings i) w (locked p body) x (w'.release i p) := by
  have hlock : Does settings i (.lockPath p) w (.ok ())
      { w with holder := Function.update w.holder p (some i) } := Or.inl ⟨rfl, hfree, rfl⟩
  have hunlock : Does settings i (.unlockPath p x.isOk) w' (.ok ()) (w'.release i p) :=
    Or.inl ⟨rfl, rfl⟩
  exact (ends_call halive hlock).bind
    (hbody.attempt.bind ((ends_call halive' hunlock).attempt.bind (.refl _ _)))

theorem ends_finishPath {canonicalRestore : Bool} (halive : i ∉ w.dead)
    (hthere : w.contents p ≠ .nothing) :
    Ends (exec settings i) w (finishPath settings p canonicalRestore) (.ok ()) w := by
  have hcanonicalise : Does settings i (.canonicalise p !canonicalRestore) w (.ok ()) w :=
    ⟨fun _ => hthere, rfl⟩
  have hoptimise : Does settings i (.optimisePath p) w (.ok ()) w := rfl
  have hsync : Does settings i (.sync p) w (.ok ()) w := rfl
  refine (ends_call halive hcanonicalise).bind ((ends_call halive hoptimise).bind ?_)
  split
  · exact ends_call halive hsync
  · exact .refl _ _

/-- A path of its own content can be registered. -/
theorem register_new {hash : HashResult} {info : ValidPathInfo}
    (hpath : settings.makeContentAddressedPath name hash.hash = .ok p)
    (hinfo : makeFromCA settings name hash.hash = .ok info) (hnew : w.db.isValidPath_ p = false) :
    ∃ db, Does settings i (.registerValidPath { info with narSize := hash.numBytesDigested }) w
      (.ok ()) (w.registered db p) ∧ db.isValidPath_ p = true := by
  rw [makeFromCA, hpath] at hinfo
  obtain rfl := Except.ok.inj hinfo
  let info : ValidPathInfo :=
    { path := p, narHash := hash.hash, references := [], registrationTime := 0,
      narSize := hash.numBytesDigested, ca := some hash.hash }
  obtain ⟨b, hb, hca⟩ := info.isContentAddressed_eq settings.toStoreDirConfig
  have hconsistent : info.CaConsistent settings.toStoreDirConfig := by
    rintro _ ⟨⟩
    show settings.makeContentAddressedPath p.name hash.hash = .ok p
    rw [settings.name_of_makeStorePath hpath, hpath]
  obtain rfl : b = true := (hca rfl).mpr hconsistent
  have hvalid : ¬ w.db.Valid info.path := by simp [Database.Valid, info, hnew]
  obtain ⟨db, hdb, hregistered⟩ :=
    Database.registerValidPath_new settings.toStoreDirConfig 0 hvalid rfl fun _ => rfl
  exact ⟨db, Or.inl ⟨true, 0, db, hb, hdb, rfl, rfl⟩, hregistered.valid_iff.mpr (Or.inr rfl)⟩

/-- Under the lock a path that is not valid is put in its place and registered. -/
theorem ends_place {hash : HashResult} {t : Tree} (depth : Nat) (canonicalRestore : Bool)
    (halive : i ∉ w.dead) (hpath : settings.makeContentAddressedPath name hash.hash = .ok p)
    (hnew : w.db.isValidPath_ p = false) (htemp : w.temp i = .tree t) :
    ∃ w', Ends (exec settings i) w
      (FromDump.place settings (depth + 1) name canonicalRestore hash p) (.ok ()) w' ∧
      w'.dead = w.dead ∧ w'.db.isValidPath_ p = true := by
  let cleared := w.put i (.realPath p) .nothing
  let moved := (cleared.place i p (cleared.temp i)).put i .temp .nothing
  have hthere : moved.contents p ≠ .nothing := by
    have hp : moved.contents p = w.temp i := Function.update_self ..
    rw [hp, htemp]
    exact Contents.noConfusion
  obtain ⟨info, hinfo⟩ : ∃ info, makeFromCA settings name hash.hash = .ok info :=
    ⟨_, by rw [makeFromCA, hpath]; rfl⟩
  obtain ⟨db, hregister, hvalid⟩ := register_new (i := i) (w := moved) hpath hinfo hnew
  have hremove : Does settings i (.remove p) w (.ok false) cleared := Or.inl ⟨rfl, rfl⟩
  have hdelete : Ends (exec settings i) w (deletePath (depth + 1) p) (.ok ()) cleared :=
    (ends_call halive hremove).bind (.refl _ _)
  have hmove : Does settings i (.moveFile p) cleared (.ok ()) moved := Or.inl ⟨rfl, Or.inr rfl⟩
  have halive' : i ∉ moved.dead := halive
  have hfinish : Ends (exec settings i) moved (finishPath settings p canonicalRestore) (.ok ()) moved :=
    ends_finishPath halive' hthere
  refine ⟨moved.registered db p, ?_, rfl, hvalid⟩
  have hcleared : i ∉ cleared.dead := halive
  refine hdelete.bind ((ends_call hcleared hmove).bind (hfinish.bind ?_))
  rw [hinfo]
  exact ends_call halive' hregister

theorem ends_unlessLocked {t : Tree} (depth : Nat) (hash : HashResult) (canonicalRestore : Bool)
    (halive : i ∉ w.dead) (hpath : settings.makeContentAddressedPath name hash.hash = .ok p)
    (hfree : w.holder p = none) (htemp : w.temp i = .tree t) :
    ∃ w', Ends (exec settings i) w (unlessValid p (locked p (unlessValid p
      (FromDump.place settings (depth + 1) name canonicalRestore hash p)))) (.ok ()) w' ∧
      w'.dead = w.dead ∧ w'.db.isValidPath_ p = true := by
  by_cases hvalid : w.db.isValidPath_ p = true
  · exact ⟨w, ends_unlessValid_of_valid halive hvalid, rfl, hvalid⟩
  · have hnew : w.db.isValidPath_ p = false := by simpa using hvalid
    generalize htaken : { w with holder := Function.update w.holder p (some i) } = taken
    have hdead : taken.dead = w.dead := by rw [← htaken]
    have hnew' : taken.db.isValidPath_ p = false := by rw [← htaken, hnew]
    have htemp' : taken.temp i = .tree t := by rw [← htaken, htemp]
    have halive' : i ∉ taken.dead := by rwa [hdead]
    obtain ⟨w', hplace, hdead', hregistered⟩ :=
      ends_place depth canonicalRestore halive' hpath hnew' htemp'
    have hbody := ends_unlessValid halive' hnew' hplace
    rw [← htaken] at hbody
    refine ⟨w'.release i p, ends_unlessValid halive hnew (ends_locked halive hfree hbody ?_), ?_⟩
    · rwa [hdead', hdead]
    · exact ⟨hdead'.trans hdead, hregistered⟩

/-- While nobody has its lock, the path of an archive is returned. -/
theorem addToStoreFromDump_ends {t : Tree} (depth : Nat) (rest : Bytes) (ht : t.Representable)
    (hheight : t.height ≤ narMaxDepth) (halive : i ∉ w.dead)
    (hpath : settings.makeContentAddressedPath name (hashString t.nar) = .ok p)
    (hfree : w.holder p = none) :
    ∃ w', Ends (exec settings i) w (addToStoreFromDump settings (depth + 1) (t.nar ++ rest) name)
      (.ok p) w' ∧ w'.db.isValidPath_ p = true := by
  have hacl : Does settings i .dirGrantsDefaultAcl w (.ok false) w := rfl
  have hmake : Does settings i .createTempDirInStore w (.ok ()) (w.put i .temp .nothing) :=
    Or.inl ⟨rfl, rfl⟩
  obtain ⟨made, hmade⟩ : ∃ made, made = w.put i .temp .nothing := ⟨_, rfl⟩
  obtain ⟨restored, hrestored⟩ : ∃ restored, restored = made.put i .temp (.tree t) := ⟨_, rfl⟩
  rw [← hmade] at hmake
  have hrestore : Does settings i (.restorePath .temp (t.nar ++ rest)) made
      (.ok ([t.nar], rest)) restored :=
    Or.inl ⟨.whole, t, rest, [t.nar], parseIntoMemory_nar [] .whole ht hheight rest, by simp, rfl,
      hrestored⟩
  have hhash : Does settings i (.finishHash [t.nar]) restored (.ok (hashSink t.nar)) restored :=
    ⟨Or.inl ⟨_, AsyncHashSink.mayReturn_iff.mpr (by simp), rfl⟩, rfl⟩
  have hdead : made.dead = w.dead := by rw [hmade]; rfl
  have hdead' : restored.dead = w.dead := by rw [hrestored, ← hdead]; rfl
  have hfree' : restored.holder p = none := by rw [hrestored, hmade]; exact hfree
  have htemp : restored.temp i = .tree t := by rw [hrestored]; exact Function.update_self ..
  obtain ⟨w', hrest, hlast, hregistered⟩ :=
    ends_unlessLocked depth (hashSink t.nar) true (hdead' ▸ halive) hpath hfree' htemp
  have hclean : Does settings i .deleteTempDir w' (.ok ()) (w'.put i .temp .nothing) := Or.inl ⟨rfl, rfl⟩
  have halive' : i ∉ w'.dead := by rwa [hlast, hdead']
  refine ⟨w'.put i .temp .nothing, (ends_call halive hacl).bind ((ends_call halive hmake).bind
    (Ends.finally' ?_ (ends_call halive' hclean))), hregistered⟩
  refine (ends_call (hdead ▸ halive) hrestore).bind ((ends_call (hdead' ▸ halive) hhash).bind ?_)
  have hcompute : compute (settings.makeContentAddressedPath name (hashSink t.nar).hash) =
      (.done (.ok p) : Prog Requests StorePath) := by
    rw [show settings.makeContentAddressedPath name (hashSink t.nar).hash = .ok p from hpath]
    rfl
  rw [hcompute]
  exact hrest.bind (.refl _ _)

end Returns

/-! ## Two trees -/

section Two

variable [Sha256]

/-- `addToStoreFromDump` may return the path, whatever else happens to the store meanwhile. -/
def Imports (settings : Settings) (source name : Bytes) (p : StorePath) : Prop :=
  ∃ depth m, (machine (exec settings) (fun t => t.elim) (fun _ _ => True)
    (fun m : Machine Requests (World Unit) Unit StorePath =>
      m.process = fun _ => .start (addToStoreFromDump settings depth source name))).Reachable m ∧
    (m.process ()).main = .done (.ok p)

theorem imports_addressed {settings : Settings} {source name : Bytes} {p : StorePath}
    (h : Imports settings source name p) : Addressed settings source name p := by
  obtain ⟨depth, m, hreach, hdone⟩ := h
  have hup : Upholds (exec (ι := Unit) settings) (fun _ _ => True) Answers () fun _ _ => True :=
    { op := fun s R a o x s' _ _ hexec => ⟨(), answer_of_exec hexec, trivial⟩
      fork := fun _ _ _ _ _ _ _ _ _ _ _ => trivial
      join := fun _ _ _ _ _ => ⟨(), trivial, trivial⟩
      outside := fun _ _ _ _ _ => trivial }
  have hstart : ∀ m : Machine Requests (World Unit) Unit StorePath,
      (m.process = fun _ => .start (addToStoreFromDump settings depth source name)) →
      ∃ R : Thread Unit → Unit, True ∧ Foundation.Kept Answers True ()
        (fun _ x _ => ∀ p, x = .ok p → Addressed settings source name p) m.process R := by
    intro m hm
    refine ⟨fun _ => (), trivial, fun i => ?_, fun i n q hq => ?_, fun _ _ _ => rfl⟩
    · rw [hm]
      exact addToStoreFromDump_meets settings depth source name
    · rw [hm] at hq
      cases hq
  obtain ⟨R, -, hkept⟩ := machine_meets hup (fun t => t.elim) hstart hreach
  have hmain := hkept.main ()
  rw [hdone] at hmain
  exact hmain p rfl

open Host

/-- What is dumped of a tree, and the store path of the dump, depend on the content of the tree
and on nothing else.  Trees that agree in their content are dumped to the same bytes or both
refused, and the paths returned for the bytes are the same; a dump that succeeds has a path
if the name is a good one, and nothing but a failure keeps `addToStoreFromDump` from
returning it; and trees that differ are dumped to different bytes. -/
theorem path_of_content {fs₁ fs₂ : FileSystem} (hlimits₁ : fs₁.WithinLimits)
    (hlimits₂ : fs₂.WithinLimits) (kernel₁ kernel₂ : Kernel) (root₁ root₂ : Path)
    (settings : Settings) (name : Bytes) :
    (Agree fs₁ root₁ fs₂ root₂ →
      (dumpPath fs₁ kernel₁ root₁).emitted = (dumpPath fs₂ kernel₂ root₂).emitted ∧
      ((dumpPath fs₁ kernel₁ root₁).result = .ok () ↔ (dumpPath fs₂ kernel₂ root₂).result = .ok ()) ∧
      ∀ p₁ p₂, Imports settings (dumpPath fs₁ kernel₁ root₁).emitted name p₁ →
        Imports settings (dumpPath fs₂ kernel₂ root₂).emitted name p₂ → p₁ = p₂) ∧
    (∀ bs, dumpPath fs₁ kernel₁ root₁ = ⟨bs, .ok ()⟩ → checkName name = .ok () →
      ∃ p, ∀ (w : World Unit) depth, () ∉ w.dead → w.holder p = none →
        ∃ w', Ends (exec settings ()) w (addToStoreFromDump settings (depth + 1) bs name) (.ok p) w') ∧
    (¬ Agree fs₁ root₁ fs₂ root₂ → ∀ bs₁ bs₂, dumpPath fs₁ kernel₁ root₁ = ⟨bs₁, .ok ()⟩ →
      dumpPath fs₂ kernel₂ root₂ = ⟨bs₂, .ok ()⟩ → bs₁ ≠ bs₂) := by
  refine ⟨fun hagree => ?_, fun bs hdump hname => ?_, fun hagree bs₁ bs₂ hdump₁ hdump₂ heq => ?_⟩
  · have halike : Emit.Alike (dumpPath fs₁ kernel₁ root₁) (dumpPath fs₂ kernel₂ root₂) :=
      dumpPath_alike hagree
    refine ⟨halike.emitted, halike.result (), fun p₁ p₂ h₁ h₂ => ?_⟩
    rw [← halike.emitted] at h₂
    exact (imports_addressed h₁).unique (imports_addressed h₂)
  · obtain ⟨t, ht, horder, hheight, rfl⟩ := holds_of_dumpPath hdump
    obtain ⟨p, hp, -⟩ := settings.makeStorePath_of_checkName (str "source") (hashString t.nar).base16
      hname
    refine ⟨p, fun w depth halive hfree => ?_⟩
    obtain ⟨w', hends, -⟩ := addToStoreFromDump_ends depth []
      (ht.representable horder hlimits₁) hheight halive hp hfree
    rw [List.append_nil] at hends
    exact ⟨w', hends⟩
  · subst heq
    exact hagree (agree_of_dumpPath hlimits₁ hlimits₂ hdump₁ hdump₂)

end Two

namespace Example

open Host

/-- A file beside a socket, and a link to the same file elsewhere. -/
def first : FileSystem :=
  .ofNodes [([], .directory 0o755 0), ([str "a"], .directory 0o700 5), ([str "a", str "x"], .leaf 0),
    ([str "a", str "s"], .leaf 1), ([str "y"], .leaf 0)]
    (fun i => if i = 0 then ⟨.regular (str "hi"), 0o750, 3⟩ else ⟨.special .socket, 0o600, 4⟩) 2 (by decide)

/-- The file alone, with another mode. -/
def second : FileSystem :=
  .ofNodes [([], .directory 0o755 0), ([str "b"], .directory 0o755 9), ([str "b", str "x"], .leaf 0)]
    (fun _ => ⟨.regular (str "hi"), 0o555, 1⟩) 1 (by decide)

theorem agree : Agree first [str "a"] second [str "b"] := by
  intro q
  rcases q with - | ⟨name, - | ⟨name', rest⟩⟩
  · decide
  · by_cases hx : name = str "x"
    · subst hx
      decide
    · by_cases hs : name = str "s"
      · subst hs
        decide
      · have hx' : (name == str "x") = false := by simpa using hx
        have hs' : (name == str "s") = false := by simpa using hs
        simp [FileSystem.label, first, second, FileSystem.ofNodes, List.lookup_cons, hx', hs']
  · simp [FileSystem.label, first, second, FileSystem.ofNodes, List.lookup_cons]

theorem withinLimits {nodes : List (Path × Node)} {inode : Nat → Inode} {nextIno : Nat}
    (h : FileSystem.WellFormed nodes nextIno = true)
    (hnames : ∀ e ∈ nodes, ∀ name, e.1.getLast? = some name → ValidName name)
    (hinodes : ∀ i, ∀ target, (inode i).kind ≠ .symlink target)
    (hsizes : ∀ i contents, (inode i).kind = .regular contents → contents.length < 2 ^ 63) :
    (FileSystem.ofNodes nodes inode nextIno h).WithinLimits := by
  refine ⟨fun p name hnode => ?_, fun p i target _ hkind => absurd hkind (hinodes i target),
    fun p i contents _ => hsizes i contents⟩
  obtain ⟨n, hn⟩ := Option.ne_none_iff_exists'.mp hnode
  exact hnames _ (FileSystem.mem_of_lookup hn) name (by simp)

theorem first_withinLimits : first.WithinLimits := by
  refine withinLimits _ (by decide) (fun i target => ?_) fun i contents hkind => ?_
  · split <;> exact InodeKind.noConfusion
  · split at hkind
    · cases hkind
      decide
    · cases hkind

theorem second_withinLimits : second.WithinLimits := by
  refine withinLimits _ (by decide) (fun i target => InodeKind.noConfusion) fun i contents hkind => ?_
  cases hkind
  decide

end Example

open Host in
/-- The file with a socket beside it and the file alone. -/
theorem path_of_content_example :
    (dumpPath Example.first default [str "a"]).emitted =
      (dumpPath Example.second default [str "b"]).emitted := by
  let _ : Sha256 := .ofTable [] fun _ h => by cases h
  exact ((path_of_content Example.first_withinLimits Example.second_withinLimits default default
    [str "a"] [str "b"] ⟨.nixStore, false⟩ (str "x")).1
    Example.agree).1

end Adding
end Store
end Archinix
