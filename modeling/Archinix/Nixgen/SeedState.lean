import Archinix.Foundation.TransitionSystem
import Archinix.Nixgen.Files

/-!
# Seeding the data partition

`nixgen-seedstate` copies each state directory of the running system to the data
partition, the first time it finds none there.  A directory counts as seeded once
`mkdir -p` has made it, before `cp -a` fills it; a run may be cut off or fail anywhere.

`copy_of_uninterrupted` is what holds over any number of runs: a state directory that
nothing else writes is a copy of its source, if no run stops while it is being copied
and no directory below it is listed before it.
-/

namespace Archinix
namespace Nixgen

open Foundation Foundation.TransitionSystem Util Host

/-- Where a run stops, in the course of seeding one directory. -/
inductive Stop where
  /-- In `mkdir -p`, which has made so many directories. -/
  | making (made : Nat)
  /-- After it: what `cp -a` has left in the directory. -/
  | copying (left : Files)

def Stop.limit : Option Stop → Option Nat
  | some (making made) => some made
  | _ => none

/-- The body of the loop, for `d=$ROOT$p`.  The flag says whether the script goes on.
`cp` does not copy a directory into itself, so it always stops there. -/
def seedPath (root : Path) (F : Files) (p : Path) (stop : Option Stop) : Option (Files × Bool) :=
  if (F.directoryAt (root ++ p)).isSome then some (F, true)
  else
    match F.makePath (Stop.limit stop) [] (root ++ p) with
    | (made, none) => some (made, false)
    | (made, some d) =>
        match made.directoryAt p, stop with
        | none, some (.copying _) => some (made, false)
        | none, _ => some (made, true)
        | some _, some (.copying left) => some (made.graft d left, false)
        | some source, _ =>
            if source <+: d then none else some (made.graft d (made.subtree source), true)

/-! ## Runs of the script -/

/-- The machine, and the run under way on it. -/
structure Seeding where
  files : Files
  /-- What is left of the list. -/
  running : Option (List Path)
  /-- The files when the run started. -/
  started : Files
  /-- For a directory of the partition, the files when the run started that made it. -/
  origin : Path → Option Files

inductive SeedEvent where
  | start
  | round (stop : Option Stop)
  | finish
  | cut
  | others (files : Files)

namespace Seeding

variable (root : Path) (paths : List Path)

/-- What happens next.  Between runs, anyone may write to the machine. -/
def next (s : Seeding) : SeedEvent → Option Seeding
  | .start =>
      if s.running = none ∧ (s.files.directoryAt root).isSome ∧ paths ≠ [] then
        some { s with running := some paths, started := s.files }
      else none
  | .round stop =>
      match s.running with
      | some (p :: rest) =>
          (seedPath root s.files p stop).map fun r =>
            { s with
              files := r.1
              running := if r.2 then some rest else none
              origin := fun q => s.origin q <|> if r.1.IsDir (root ++ q) then some s.started else none }
      | _ => none
  | .finish => if s.running = some [] then some { s with running := none } else none
  | .cut => if s.running.isSome then some { s with running := none } else none
  | .others files => if s.running = none then some { s with files := files } else none

def system : TransitionSystem Seeding SeedEvent :=
  .ofStep (fun s => s.running = none ∧ s.origin = fun _ => none) (next root paths)

variable (p : Path)

/-- Nobody else writes to the state directory `p` of the partition. -/
def LeftAlone (s : Seeding) : SeedEvent → Prop
  | .others files => ∀ r, files.node (root ++ p ++ r) = s.files.node (root ++ p ++ r)
  | _ => True

/-- The run does not stop in the copy of a directory that `p` is in; the ways it takes on
the partition are direct; and what it copies lies apart from the partition. -/
def Uninterrupted (s : Seeding) : SeedEvent → Prop
  | .round stop => ∀ q rest, s.running = some (q :: rest) →
      s.files.Direct (root ++ q) ∧ (q <+: p →
        (∀ left, stop ≠ some (.copying left)) ∧
        ∀ source, s.files.directoryAt q = some source → ¬ root <+: source ∧ ¬ source <+: root)
  | _ => True

/-- No directory below `p` is listed before it. -/
def ListedFirst : Prop :=
  ∀ before after, paths = before ++ p :: after → p ∉ before → ∀ q ∈ before, ¬ p <+: q

/-- The state directory `p` holds all of its source, as the source was when the run started
that seeded it; anything else in it is there for a path listed below it. -/
def HoldsCopy (s : Seeding) : Prop :=
  s.files.IsDir (root ++ p) ∧ ∃ origin, s.origin p = some origin ∧
    ∀ source, origin.directoryAt p = some source →
      (∀ r n, origin.node (source ++ r) = some n → s.files.node (root ++ p ++ r) = some n) ∧
      ∀ r, origin.node (source ++ r) = none → s.files.node (root ++ p ++ r) ≠ none →
        ∃ rel, p ++ rel ∈ paths ∧ ¬ origin.IsDir (source ++ rel) ∧ (r <+: rel ∨ rel <+: r)

end Seeding

/-! ## One round -/

section Round

variable {root : Path} {F F' : Files} {q y : Path} {stop : Option Stop} {ok : Bool}

/-- What a round does that finds no directory: `mkdir -p`, then the copy, if there is a
source. -/
inductive Seeded (root : Path) (F : Files) (q : Path) (stop : Option Stop) : Files → Bool → Prop
  | stopped {made : Files} {result : Option Path} (hmade : Files.Made F made (root ++ q) result)
      (hresult : (∀ left, stop ≠ some (.copying left)) → result = none) :
      Seeded root F q stop made false
  | empty {made : Files} (hmade : Files.Made F made (root ++ q) (some (root ++ q)))
      (hsource : made.directoryAt q = none) : Seeded root F q stop made true
  | cutOff {made left : Files} (hmade : Files.Made F made (root ++ q) (some (root ++ q)))
      (hstop : stop = some (.copying left)) : Seeded root F q stop (made.graft (root ++ q) left) false
  | copied {made : Files} {source : Path}
      (hmade : Files.Made F made (root ++ q) (some (root ++ q)))
      (hsource : made.directoryAt q = some source) :
      Seeded root F q stop (made.graft (root ++ q) (made.subtree source)) true

theorem seedPath_cases (h : F.Direct (root ++ q)) (hround : seedPath root F q stop = some (F', ok)) :
    F' = F ∧ ok = true ∧ F.IsDir (root ++ q) ∨
      ¬ F.IsDir (root ++ q) ∧ Seeded root F q stop F' ok := by
  have hmade : Files.Made F (F.makePath (Stop.limit stop) [] (root ++ q)).1 ([] ++ (root ++ q))
      (F.makePath (Stop.limit stop) [] (root ++ q)).2 := Files.makePath_made h
  rw [seedPath] at hround
  by_cases hthere : (F.directoryAt (root ++ q)).isSome
  · rw [if_pos hthere] at hround
    obtain ⟨t, ht⟩ := Option.isSome_iff_exists.mp hthere
    cases hround
    exact Or.inl ⟨rfl, rfl, (h.directoryAt_iff.mp ht).2⟩
  · rw [if_neg hthere] at hround
    refine Or.inr ⟨fun hdir => hthere (by rw [h.directoryAt_iff.mpr ⟨rfl, hdir⟩]; rfl), ?_⟩
    rcases hpath : F.makePath (Stop.limit stop) [] (root ++ q) with ⟨made, - | d⟩
    · rw [hpath] at hround hmade
      cases hround
      exact .stopped hmade fun _ => rfl
    · rw [hpath] at hround hmade
      obtain ⟨rfl, -⟩ := hmade.result d rfl
      dsimp only at hround
      cases hsource : made.directoryAt q with
      | none =>
          rw [hsource] at hround
          rcases stop with - | made' | left <;> cases hround
          · exact .empty hmade hsource
          · exact .empty hmade hsource
          · exact .stopped hmade fun hstop => absurd rfl (hstop left)
      | some source =>
          rw [hsource] at hround
          rcases stop with - | made' | left
          · dsimp only at hround
            split_ifs at hround
            cases hround
            exact .copied hmade hsource
          · dsimp only at hround
            split_ifs at hround
            cases hround
            exact .copied hmade hsource
          · cases hround
            exact .cutOff hmade rfl

/-- Below a new directory there was nothing. -/
theorem Seeded.free {made : Files} {result : Option Path} (hmade : Files.Made F made (root ++ q) result)
    (hnone : ¬ F.IsDir (root ++ q)) (hdir : made.IsDir (root ++ q)) (hy : root ++ q <+: y) :
    F.node y = none := by
  have hplace : F.node (root ++ q) = none := by
    rcases hmade.node (root ++ q) with heq | ⟨hfree, -⟩
    · obtain ⟨metadata, hmetadata⟩ := hdir
      exact absurd ⟨metadata, by rw [← heq, hmetadata]⟩ hnone
    · exact hfree
  by_contra hnode
  by_cases hself : root ++ q = y
  · exact hnode (hself ▸ hplace)
  · exact hnone (Files.isDir_of_below hnode hy hself)

/-- A round only adds nodes, on the way to its directory and below it. -/
theorem Seeded.node (h : Seeded root F q stop F' ok) (hnone : ¬ F.IsDir (root ++ q)) (y : Path) :
    F'.node y = F.node y ∨ F.node y = none ∧ (y <+: root ++ q ∨ root ++ q <+: y) := by
  have hmkdir : ∀ {made result}, Files.Made F made (root ++ q) result →
      made.node y = F.node y ∨ F.node y = none ∧ (y <+: root ++ q ∨ root ++ q <+: y) :=
    fun hmade => (hmade.node y).imp_right fun hnew => ⟨hnew.1, Or.inl hnew.2.2.1⟩
  have hgraft : ∀ {made tree : Files}, Files.Made F made (root ++ q) (some (root ++ q)) →
      (made.graft (root ++ q) tree).node y = F.node y ∨
        F.node y = none ∧ (y <+: root ++ q ∨ root ++ q <+: y) := by
    intro made tree hmade
    have hdir := (hmade.result _ rfl).2
    rw [Files.node_graft hdir]
    split_ifs with hbelow
    · exact Or.inr ⟨Seeded.free hmade hnone hdir hbelow, Or.inr hbelow⟩
    · exact hmkdir hmade
  cases h with
  | stopped hmade _ => exact hmkdir hmade
  | empty hmade _ => exact hmkdir hmade
  | cutOff hmade _ => exact hgraft hmade
  | copied hmade _ => exact hgraft hmade

theorem Seeded.kept (h : Seeded root F q stop F' ok) (hnone : ¬ F.IsDir (root ++ q)) :
    Files.Kept F F' := by
  intro y n hn
  rcases h.node hnone y with heq | ⟨hfree, -⟩
  · rw [heq, hn]
  · rw [hfree] at hn
    cases hn

/-- The script goes on only with the directory made. -/
theorem Seeded.isDir (h : Seeded root F q stop F' true) : F'.IsDir (root ++ q) := by
  cases h with
  | empty hmade _ => exact (hmade.result _ rfl).2
  | copied hmade hsource =>
      obtain ⟨metadata, hmetadata⟩ := Files.walk_leads (Files.root _) hsource
      refine ⟨metadata, ?_⟩
      rw [Files.node_graft (hmade.result _ rfl).2, if_pos (List.prefix_refl _), List.drop_length,
        Files.node_subtree ⟨metadata, hmetadata⟩, List.append_nil, hmetadata]

/-- Where two directories lie apart, nothing is below both. -/
theorem not_below_apart {mid : Path} (hroot : ¬ root <+: mid) (hmid : ¬ mid <+: root)
    (hy : mid <+: y) (hnew : y <+: root ++ q ∨ root ++ q <+: y) : False := by
  rcases hnew with hnew | hnew
  · rcases List.prefix_or_prefix_of_prefix hnew (List.prefix_append root q) with hle | hle
    · exact hmid (hy.trans hle)
    · exact (List.prefix_or_prefix_of_prefix hy hle).elim hmid hroot
  · exact (List.prefix_or_prefix_of_prefix hy ((List.prefix_append root q).trans hnew)).elim hmid hroot

variable {S : Files} {rel source : Path}

/-- A directory that comes to be below the one a round seeds is a copy of its source. -/
theorem Seeded.copy (h : Seeded root F q stop F' ok) (hnone : ¬ F.IsDir (root ++ q))
    (hkept : Files.Kept S F) (hsame : ∀ y, F.node y = S.node y ∨ S.node y = none ∧ root <+: y)
    (hstop : ∀ left, stop ≠ some (.copying left))
    (hapart : ∀ source, F.directoryAt q = some source → ¬ root <+: source ∧ ¬ source <+: root)
    (hplain : ∀ name ∈ q ++ rel, Files.Plain name) (hsource : S.directoryAt (q ++ rel) = some source)
    (hdir : F'.IsDir (root ++ (q ++ rel))) (r : Path) :
    F'.node (root ++ (q ++ rel) ++ r) = S.node (source ++ r) := by
  obtain ⟨m, hm⟩ := Files.directoryAt_append (F := S) q
  obtain ⟨mid, hmid, hrel⟩ := Option.bind_eq_some_iff.mp ((hm rel).symm.trans hsource)
  have hmidF := hkept.directoryAt hmid
  have hmiddir : F.IsDir mid := Files.walk_leads F.root hmidF
  obtain ⟨hroot, hbelow⟩ := hapart mid hmidF
  -- the source lies apart from the partition, so the run has not changed it
  have hunder : ∀ {y}, mid <+: y → F.node y = S.node y := fun hy =>
    (hsame _).resolve_right fun hnew =>
      (List.prefix_or_prefix_of_prefix hy hnew.2).elim hbelow hroot
  cases h with
  | stopped hmade hresult =>
      obtain ⟨metadata, hmetadata⟩ := hdir
      exfalso
      rcases hmade.node (root ++ (q ++ rel)) with heq | ⟨-, -, hfront, hlast⟩
      · have hthere : F.IsDir (root ++ q ++ rel) := ⟨metadata, by
          rw [List.append_assoc, ← heq, hmetadata]⟩
        exact hnone (hthere.of_prefix (List.prefix_append _ _))
      · rw [← List.append_assoc] at hfront hlast
        have hself := hfront.eq_of_length_le (by simp)
        have hend := hlast hself
        rw [hresult hstop] at hend
        cases hend
  | empty hmade hsource' =>
      rw [(hkept.trans hmade.kept).directoryAt hmid] at hsource'
      cases hsource'
  | cutOff hmade hstop' => exact absurd hstop' (hstop _)
  | @copied made source' hmade hsource' =>
      obtain rfl : mid = source' := Option.some.inj
        (((hkept.trans hmade.kept).directoryAt hmid).symm.trans hsource')
      have hmaddir := hmade.kept.isDir hmiddir
      have hmadesame : ∀ {y}, mid <+: y → made.node y = S.node y := fun {y} hy => by
        rcases hmade.node y with heq | ⟨-, -, hnew, -⟩
        · rw [heq, hunder hy]
        · exact (not_below_apart hroot hbelow hy (Or.inl hnew)).elim
      have hcopy : ∀ r, (made.graft (root ++ q) (made.subtree mid)).node (root ++ q ++ r) =
          S.node (mid ++ r) := fun r => by
        rw [Files.node_graft (hmade.result _ rfl).2, if_pos (List.prefix_append _ _), List.drop_left,
          Files.node_subtree hmaddir, hmadesame (List.prefix_append _ _)]
      have hreldir : S.IsDir (mid ++ rel) := by
        obtain ⟨metadata, hmetadata⟩ := hdir
        rw [← List.append_assoc, hcopy] at hmetadata
        exact ⟨metadata, hmetadata⟩
      have hwalk := Files.walk_isDir (n := m) (fun name hname => hplain name
        (List.mem_append_right _ hname)) hreldir
      obtain rfl : mid ++ rel = source := Option.some.inj (hwalk.symm.trans hrel)
      rw [← List.append_assoc, List.append_assoc, hcopy, List.append_assoc]

end Round

/-! ## Runs -/

namespace Seeding

section Runs

variable {root : Path} {paths : List Path} {p : Path} {s t : Seeding} {e : SeedEvent}

theorem HoldsCopy.added (h : HoldsCopy root paths p s)
    (hkept : ∀ r n, s.files.node (root ++ p ++ r) = some n → t.files.node (root ++ p ++ r) = some n)
    (horigin : t.origin p = s.origin p)
    (hnew : ∀ r, t.files.node (root ++ p ++ r) = s.files.node (root ++ p ++ r) ∨
      ∃ rel, p ++ rel ∈ paths ∧ ¬ s.files.IsDir (root ++ p ++ rel) ∧ (r <+: rel ∨ rel <+: r)) :
    HoldsCopy root paths p t := by
  obtain ⟨⟨metadata, hdir⟩, origin, hfrom, hcopy⟩ := h
  refine ⟨⟨metadata, ?_⟩, origin, horigin.trans hfrom, fun source hsource => ?_⟩
  · have hplace := hkept [] _ (by rw [List.append_nil]; exact hdir)
    rwa [List.append_nil] at hplace
  obtain ⟨hall, hextra⟩ := hcopy source hsource
  refine ⟨fun r n hn => hkept r n (hall r n hn), fun r hr hnode => ?_⟩
  rcases hnew r with heq | ⟨rel, hmem, hrel, hr'⟩
  · exact hextra r hr (heq ▸ hnode)
  · refine ⟨rel, hmem, ?_, hr'⟩
    rintro ⟨metadata', hmetadata'⟩
    exact hrel ⟨metadata', hall rel _ hmetadata'⟩

/-- What holds after any number of runs, and in the course of one. -/
structure Inv (root : Path) (paths : List Path) (p : Path) (s : Seeding) : Prop where
  held : s.files.IsDir (root ++ p) → HoldsCopy root paths p s
  unmade : ¬ s.files.IsDir (root ++ p) → s.origin p = none
  running : ∀ rest, s.running = some rest →
    (s.files.directoryAt root).isSome ∧ Files.Kept s.started s.files ∧
    (∀ y, s.files.node y = s.started.node y ∨ s.started.node y = none ∧ root <+: y) ∧
    ∃ before, paths = before ++ rest ∧ (p ∈ before → s.files.IsDir (root ++ p))

theorem next_start (h : next root paths s .start = some t) :
    (s.running = none ∧ (s.files.directoryAt root).isSome ∧ paths ≠ []) ∧
      t = { s with running := some paths, started := s.files } := by
  rw [next] at h
  split_ifs at h with hcond
  exact ⟨hcond, (Option.some.inj h).symm⟩

theorem next_finish (h : next root paths s .finish = some t) :
    s.running = some [] ∧ t = { s with running := none } := by
  rw [next] at h
  split_ifs at h with hcond
  exact ⟨hcond, (Option.some.inj h).symm⟩

theorem next_cut (h : next root paths s .cut = some t) :
    s.running.isSome ∧ t = { s with running := none } := by
  rw [next] at h
  split_ifs at h with hcond
  exact ⟨hcond, (Option.some.inj h).symm⟩

theorem next_others {files : Files} (h : next root paths s (.others files) = some t) :
    s.running = none ∧ t = { s with files := files } := by
  rw [next] at h
  split_ifs at h with hcond
  exact ⟨hcond, (Option.some.inj h).symm⟩

/-- The round of a path. -/
theorem round_cases {stop : Option Stop} (hstep : next root paths s (.round stop) = some t)
    (hcond : Uninterrupted root p s (.round stop)) :
    ∃ q rest F' ok, s.running = some (q :: rest) ∧ s.files.Direct (root ++ q) ∧
      (F' = s.files ∧ ok = true ∧ s.files.IsDir (root ++ q) ∨
        ¬ s.files.IsDir (root ++ q) ∧ Seeded root s.files q stop F' ok) ∧
      t = { s with
        files := F'
        running := if ok then some rest else none
        origin := fun q => s.origin q <|> if F'.IsDir (root ++ q) then some s.started else none } := by
  rw [next] at hstep
  rcases hrunning : s.running with - | - | ⟨q, rest⟩
  · rw [hrunning] at hstep
    cases hstep
  · rw [hrunning] at hstep
    cases hstep
  · rw [hrunning] at hstep
    obtain ⟨⟨F', ok⟩, hround, rfl⟩ := Option.map_eq_some_iff.mp hstep
    have hdirect := (hcond q rest hrunning).1
    exact ⟨q, rest, F', ok, rfl, hdirect, seedPath_cases hdirect hround, rfl⟩

/-- What is there of `p` stays. -/
theorem HoldsCopy.step (h : HoldsCopy root paths p s) (hinv : Inv root paths p s)
    (hstep : next root paths s e = some t) (halone : LeftAlone root p s e)
    (hcond : Uninterrupted root p s e) :
    HoldsCopy root paths p t ∧
      ∀ r n, s.files.node (root ++ p ++ r) = some n → t.files.node (root ++ p ++ r) = some n := by
  have hsame : t.origin p = s.origin p →
      (∀ r, t.files.node (root ++ p ++ r) = s.files.node (root ++ p ++ r)) →
      HoldsCopy root paths p t ∧
        ∀ r n, s.files.node (root ++ p ++ r) = some n → t.files.node (root ++ p ++ r) = some n := by
    intro horigin hnode
    have hkept : ∀ r n, s.files.node (root ++ p ++ r) = some n →
        t.files.node (root ++ p ++ r) = some n := fun r n hn => by rw [hnode, hn]
    exact ⟨h.added hkept horigin fun r => Or.inl (hnode r), hkept⟩
  cases e with
  | start =>
      obtain ⟨-, rfl⟩ := next_start hstep
      exact hsame rfl fun _ => rfl
  | finish =>
      obtain ⟨-, rfl⟩ := next_finish hstep
      exact hsame rfl fun _ => rfl
  | cut =>
      obtain ⟨-, rfl⟩ := next_cut hstep
      exact hsame rfl fun _ => rfl
  | others files =>
      obtain ⟨-, rfl⟩ := next_others hstep
      exact hsame rfl halone
  | round stop =>
      obtain ⟨q, rest, F', ok, hrunning, -, hround, rfl⟩ := round_cases hstep hcond
      obtain ⟨hdir, origin, hfrom, -⟩ := id h
      have horigin : (s.origin p <|> if F'.IsDir (root ++ p) then some s.started else none) =
          s.origin p := by rw [hfrom]; rfl
      rcases hround with ⟨rfl, -, -⟩ | ⟨hnone, hseeded⟩
      · exact hsame horigin fun _ => rfl
      · refine ⟨h.added (fun r n => hseeded.kept hnone _ _) horigin fun r => ?_,
          fun r n => hseeded.kept hnone _ _⟩
        refine (hseeded.node hnone _).imp_right fun hnew => ?_
        obtain ⟨-, -, -, before, rfl, -⟩ := hinv.running _ hrunning
        have hlisted : ∀ {rel}, q = p ++ rel → p ++ rel ∈ before ++ q :: rest ∧
            ¬ s.files.IsDir (root ++ p ++ rel) := by
          rintro rel rfl
          exact ⟨by simp, by rwa [List.append_assoc]⟩
        simp only [List.append_assoc, List.prefix_append_right_inj] at hnew
        rcases hnew.2 with ⟨r', hq⟩ | hq
        · rw [List.append_assoc] at hq
          obtain ⟨hmem, hrel⟩ := hlisted hq.symm
          exact ⟨r ++ r', hmem, hrel, Or.inl (List.prefix_append _ _)⟩
        · rcases List.prefix_or_prefix_of_prefix hq (List.prefix_append p r) with hqp | ⟨rel, rfl⟩
          · exact absurd (hdir.of_prefix ((List.prefix_append_right_inj root).mpr hqp)) hnone
          · obtain ⟨hmem, hrel⟩ := hlisted rfl
            exact ⟨rel, hmem, hrel, Or.inr ((List.prefix_append_right_inj p).mp hq)⟩

/-- What is not there yet is copied whole, if it comes to be there. -/
theorem HoldsCopy.made {stop : Option Stop} (hp : p ∈ paths) (hinv : Inv root paths p s)
    (hplain : ∀ name ∈ p, Files.Plain name) (hfirst : ListedFirst paths p)
    (hstep : next root paths s (.round stop) = some t) (hcond : Uninterrupted root p s (.round stop))
    (hnone : ¬ s.files.IsDir (root ++ p)) (hdir : t.files.IsDir (root ++ p)) :
    HoldsCopy root paths p t := by
  obtain ⟨q, rest, F', ok, hrunning, -, hround, rfl⟩ := round_cases hstep hcond
  obtain ⟨-, hkept, hsame, before, hpaths, hbefore⟩ := hinv.running _ hrunning
  obtain ⟨hfree, hseeded⟩ : ¬ s.files.IsDir (root ++ q) ∧ Seeded root s.files q stop F' ok :=
    hround.resolve_left fun hthere => hnone (hthere.1 ▸ hdir)
  refine ⟨hdir, s.started, ?_, fun source hsource => ?_⟩
  · show (s.origin p <|> if F'.IsDir (root ++ p) then some s.started else none) = some s.started
    rw [hinv.unmade hnone, if_pos hdir]
    rfl
  -- `mkdir -p` for a path below `p` would have made it, but `p` comes first
  have hq : q <+: p := by
    obtain ⟨metadata, hmetadata⟩ := id hdir
    have hnew := (hseeded.node hfree (root ++ p)).resolve_left fun heq =>
      hnone ⟨metadata, heq ▸ hmetadata⟩
    refine hnew.2.elim (fun hpq => ?_) (List.prefix_append_right_inj root).mp
    by_contra hne
    have hrest : p ∈ rest := by
      rw [hpaths, List.mem_append, List.mem_cons] at hp
      rcases hp with hp | rfl | hp
      · exact absurd (hbefore hp) hnone
      · exact absurd (List.prefix_refl _) hne
      · exact hp
    obtain ⟨between, after, rfl, hbetween⟩ := List.eq_append_cons_of_mem hrest
    refine hfirst (before ++ q :: between) after (by simp [hpaths]) ?_ q (by simp)
      ((List.prefix_append_right_inj root).mp hpq)
    rw [List.mem_append, List.mem_cons]
    rintro (hmem | rfl | hmem)
    · exact hnone (hbefore hmem)
    · exact hne (List.prefix_refl _)
    · exact hbetween hmem
  obtain ⟨rel, rfl⟩ := hq
  obtain ⟨hstop, hapart⟩ := (hcond q rest hrunning).2 (List.prefix_append _ _)
  have hcopy := hseeded.copy hfree hkept hsame hstop hapart hplain hsource hdir
  refine ⟨fun r n hn => (hcopy r).trans hn, fun r hr hnode => ?_⟩
  exact absurd ((hcopy r).trans hr) hnode

theorem Inv.step (hp : p ∈ paths) (hplain : ∀ name ∈ p, Files.Plain name)
    (hfirst : ListedFirst paths p) (hinv : Inv root paths p s) (hstep : next root paths s e = some t)
    (halone : LeftAlone root p s e) (hcond : Uninterrupted root p s e) : Inv root paths p t := by
  have hheld : s.files.IsDir (root ++ p) → HoldsCopy root paths p t := fun hdir =>
    ((hinv.held hdir).step hinv hstep halone hcond).1
  cases e with
  | start =>
      obtain ⟨⟨-, hroot, -⟩, rfl⟩ := next_start hstep
      refine ⟨hheld, hinv.unmade, fun rest hrest => ?_⟩
      obtain rfl := Option.some.inj hrest
      exact ⟨hroot, .refl _, fun _ => Or.inl rfl, [], rfl, fun hmem => by cases hmem⟩
  | finish =>
      obtain ⟨-, rfl⟩ := next_finish hstep
      exact ⟨hheld, hinv.unmade, fun rest hrest => by cases hrest⟩
  | cut =>
      obtain ⟨-, rfl⟩ := next_cut hstep
      exact ⟨hheld, hinv.unmade, fun rest hrest => by cases hrest⟩
  | others files =>
      obtain ⟨hidle, rfl⟩ := next_others hstep
      have hsame : files.IsDir (root ++ p) ↔ s.files.IsDir (root ++ p) := by
        have hnode := halone []
        rw [List.append_nil] at hnode
        rw [Files.IsDir, Files.IsDir, hnode]
      exact ⟨fun hdir => hheld (hsame.mp hdir), fun hnone => hinv.unmade (mt hsame.mpr hnone),
        fun rest hrest => by rw [hidle] at hrest; cases hrest⟩
  | round stop =>
      have hmade := HoldsCopy.made hp hinv hplain hfirst hstep hcond
      obtain ⟨q, rest, F', ok, hrunning, hdirect, hround, rfl⟩ := round_cases hstep hcond
      refine ⟨fun hdir => ?_, fun hnone => ?_, fun rest' hrest' => ?_⟩
      · by_cases hthere : s.files.IsDir (root ++ p)
        · exact hheld hthere
        · exact hmade hthere hdir
      · have hbefore : ¬ s.files.IsDir (root ++ p) := fun hdir => hnone (hheld hdir).1
        show (s.origin p <|> if F'.IsDir (root ++ p) then some s.started else none) = none
        rw [hinv.unmade hbefore, if_neg hnone]
        rfl
      · obtain ⟨hroot, hkept, hsame, before, rfl, hbefore⟩ := hinv.running _ hrunning
        obtain ⟨rfl, rfl⟩ : ok = true ∧ rest' = rest := by cases ok <;> simp_all
        have hstays : Files.Kept s.files F' := by
          rcases hround with ⟨rfl, -, -⟩ | ⟨hnone, hseeded⟩
          · exact .refl _
          · exact hseeded.kept hnone
        obtain ⟨base, hbase⟩ := Option.isSome_iff_exists.mp hroot
        have hrootdir : s.files.IsDir root :=
          ((hdirect.of_prefix (List.prefix_append _ _)).directoryAt_iff.mp hbase).2
        refine ⟨by rw [hstays.directoryAt hbase]; rfl, hkept.trans hstays, fun y => ?_,
          before ++ [q], by simp, fun hmem => ?_⟩
        · rcases hround with ⟨rfl, -, -⟩ | ⟨hnone, hseeded⟩
          · exact hsame y
          · rcases hseeded.node hnone y with heq | ⟨hfree, hnew⟩
            · rw [heq]
              exact hsame y
            · have hunder : root <+: y := by
                rcases hnew with hnew | hnew
                · refine (List.prefix_or_prefix_of_prefix hnew (List.prefix_append root q)).elim ?_ id
                  intro hy
                  obtain ⟨metadata, hdir⟩ := hrootdir.of_prefix hy
                  rw [hfree] at hdir
                  cases hdir
                · exact (List.prefix_append root q).trans hnew
              exact Or.inr ⟨(hsame y).elim (fun heq => heq ▸ hfree) And.left, hunder⟩
        · rcases List.mem_append.mp hmem with hmem | hmem
          · exact hstays.isDir (hbefore hmem)
          · obtain rfl := List.mem_singleton.mp hmem
            exact hround.elim (fun hthere => hthere.1 ▸ hthere.2.2) fun hseeded => hseeded.2.isDir

/-- After any number of runs of the script, each cut off or failing anywhere but in the copy
of `p`: once a run has gone through, `p` holds a copy of its source, and nothing of it
changes from then on. -/
theorem copy_of_uninterrupted {s₀ : Seeding} {es : List SeedEvent} (hp : p ∈ paths)
    (hplain : ∀ name ∈ p, Files.Plain name) (hfirst : ListedFirst paths p)
    (hinit : (system root paths).init s₀) (hfree : s₀.files.node (root ++ p) = none)
    (hrun : ((system root paths).restrict fun s e =>
      LeftAlone root p s e ∧ Uninterrupted root p s e).Run s₀ es s) :
    (∀ t, (system root paths).step s .finish t → HoldsCopy root paths p t) ∧
    (HoldsCopy root paths p s → ∀ es t, ((system root paths).restrict fun s e =>
        LeftAlone root p s e ∧ Uninterrupted root p s e).Run s es t →
      HoldsCopy root paths p t ∧
        ∀ r n, s.files.node (root ++ p ++ r) = some n → t.files.node (root ++ p ++ r) = some n) := by
  have hinv : Inv root paths p s := by
    refine hrun.preserves (fun s e t hs hstep => ?_) ⟨fun hdir => ?_, fun _ => ?_, fun rest hrest => ?_⟩
    · exact hs.step hp hplain hfirst hstep.1 hstep.2.1 hstep.2.2
    · obtain ⟨metadata, hdir⟩ := hdir
      rw [hfree] at hdir
      cases hdir
    · rw [hinit.2]
    · rw [hinit.1] at hrest
      cases hrest
  constructor
  · intro t hstep
    obtain ⟨hend, rfl⟩ := next_finish hstep
    obtain ⟨-, -, -, before, rfl, hbefore⟩ := hinv.running _ hend
    exact hinv.held (hbefore (by simpa using hp))
  · intro hheld es t hafter
    have hall : Inv root paths p t ∧ HoldsCopy root paths p t ∧ ∀ r n,
        s.files.node (root ++ p ++ r) = some n → t.files.node (root ++ p ++ r) = some n := by
      refine hafter.preserves (P := fun t => Inv root paths p t ∧ HoldsCopy root paths p t ∧ ∀ r n,
        s.files.node (root ++ p ++ r) = some n → t.files.node (root ++ p ++ r) = some n)
        (fun u e v hu hstep => ?_) ⟨hinv, hheld, fun _ _ hn => hn⟩
      obtain ⟨hinvu, hheldu, hkept⟩ := hu
      obtain ⟨hheldv, hstay⟩ := hheldu.step hinvu hstep.1 hstep.2.1 hstep.2.2
      exact ⟨hinvu.step hp hplain hfirst hstep.1 hstep.2.1 hstep.2.2, hheldv,
        fun r n hn => hstay r n (hkept r n hn)⟩
    exact hall.2

end Runs

/-! ## A home directory -/

section Home

def home : Path := [str "home"]

def dataRoot : Path := [str "data"]

/-- A running system with a user, and an empty data partition. -/
def homeFiles : Files :=
  .ofNodes [(home, .directory ⟨0o755, 0, 0⟩),
    (home ++ [str "user"], .directory ⟨0o700, 1000, 1000⟩),
    (home ++ [str "user", str "notes"], .regular (str "text") ⟨0o600, 1000, 1000⟩),
    (dataRoot, .directory ⟨0o755, 0, 0⟩)] (by decide +kernel)

def homeSeeding : Seeding := ⟨homeFiles, none, homeFiles, fun _ => none⟩

/-- What `mkdir -p` has made, and nothing in it yet. -/
def emptyDirectory : Files := .ofNodes [] rfl

def afterCut : Option Seeding :=
  follow (next dataRoot [home]) homeSeeding
    [.start, .round (some (.copying emptyDirectory)), .start, .round none]

/-- A run cut off after `mkdir -p` leaves an empty directory, and the next one takes it for
seeded. -/
theorem cut_copy_stays_empty :
    ¬ ∀ (root : Path) (paths : List Path) (p : Path) (s₀ s t : Seeding) (es : List SeedEvent),
      p ∈ paths → (∀ name ∈ p, Files.Plain name) → (system root paths).init s₀ →
      s₀.files.node (root ++ p) = none →
      ((system root paths).restrict (LeftAlone root p)).Run s₀ es s →
      (system root paths).step s .finish t → HoldsCopy root paths p t := by
  intro hclaim
  have hend : afterCut.map (·.running) = some (some []) := by decide +kernel
  have hlost : afterCut.map (fun s => s.files.node (dataRoot ++ home ++ [str "user"])) =
    some none := by decide +kernel
  have horigin : afterCut.map (fun s => (s.origin home).map fun origin =>
      (origin.directoryAt home, (origin.node (home ++ [str "user"])).isSome)) =
    some (some (some home, true)) := by decide +kernel
  obtain ⟨s, hs, hrunning⟩ := Option.map_eq_some_iff.mp hend
  rw [hs] at hlost horigin
  have hheld := hclaim dataRoot [home] home homeSeeding s { s with running := none } _
    (by decide) (by decide) ⟨rfl, rfl⟩ (by decide +kernel)
    (Run.of_follow (by simp [LeftAlone]) hs) (by simp [system, ofStep, next, hrunning])
  obtain ⟨-, origin, hfrom, hcopy⟩ := hheld
  rw [Option.map_some, Option.some.injEq, show s.origin home = some origin from hfrom,
    Option.map_some, Option.some.injEq, Prod.mk.injEq] at horigin
  obtain ⟨n, hn⟩ := Option.isSome_iff_exists.mp horigin.2
  have hthere := (hcopy home horigin.1).1 [str "user"] n hn
  rw [Option.map_some, Option.some.injEq] at hlost
  exact absurd (hlost.symm.trans hthere) (by simp)

/-- Cut off before anything is made, and run again. -/
theorem copy_of_uninterrupted_home :
    ∃ s t, (system dataRoot [home]).step ⟨homeFiles, some [home], homeFiles, fun _ => none⟩
        (.round none) s ∧
      (system dataRoot [home]).step s .finish t ∧ HoldsCopy dataRoot [home] home t := by
  have hend : (next dataRoot [home] ⟨homeFiles, some [home], homeFiles, fun _ => none⟩
      (.round none)).map (·.running) = some (some []) := by decide +kernel
  obtain ⟨s, hs, hrunning⟩ := Option.map_eq_some_iff.mp hend
  have hstart : Run ((system dataRoot [home]).restrict fun s e =>
      LeftAlone dataRoot home s e ∧ Uninterrupted dataRoot home s e) homeSeeding
      [.start, .cut, .start] ⟨homeFiles, some [home], homeFiles, fun _ => none⟩ :=
    Run.of_follow (by simp [LeftAlone, Uninterrupted]) (by
      have hroot : (homeFiles.directoryAt dataRoot).isSome = true := by decide +kernel
      simp [follow, next, homeSeeding, hroot])
  have hcond : Uninterrupted dataRoot home ⟨homeFiles, some [home], homeFiles, fun _ => none⟩
      (.round none) := by
    rintro q rest hq
    cases hq
    refine ⟨by decide +kernel, fun _ => ⟨by simp, fun source hsource => ?_⟩⟩
    have hhome : homeFiles.directoryAt home = some home := by decide +kernel
    obtain rfl := Option.some.inj (hhome.symm.trans hsource)
    decide
  have hfinish : (system dataRoot [home]).step s .finish { s with running := none } := by
    simp [system, ofStep, next, hrunning]
  refine ⟨s, _, hs, hfinish, (copy_of_uninterrupted (by decide) (by decide) ?_ ⟨rfl, rfl⟩
    (by decide +kernel) (hstart.snoc ⟨hs, trivial, hcond⟩)).1 _ hfinish⟩
  intro before after hlist hbefore q hq
  rcases List.singleton_eq_append_iff.mp hlist with ⟨rfl, -⟩ | ⟨rfl, hnil⟩
  · cases hq
  · cases hnil

end Home

end Seeding

end Nixgen
end Archinix
