import Archinix.Util.CanonPath

/-!
# Canonicalisation through symlinks

`canonPath(path, true)`: the callback of `canonPathInner` puts the target of a symlink
in front of the rest of the path, and takes the result back to the link's directory,
or to nothing if the target is absolute.  It gives up at the 1024th link.

`Steps` resolves a path component by component.  Every round of the loop is some of
its steps, and links left and length of the rest decrease lexicographically:
`canonPath_resolves`.
-/

namespace Archinix
namespace Util

/-- The symlinks of a file system that does not change: the target of what a path names. -/
structure Symlinks where
  target : Bytes → Option Bytes
  target_ne_nil : ∀ p t, target p = some t → t ≠ []

/-- `std::filesystem::path::parent_path` of an absolute path. -/
def parentPath (path : Bytes) : Bytes :=
  let dir := (path.rdropWhile (· ≠ 47)).rdropWhile (· = 47)
  if dir = [] then str "/" else dir

def maxFollow : Nat := 1024

/-- The callback: its state is `followCount`.  An exception comes with the number of links
that had been followed. -/
def followSymlinks (target : Bytes → Option Bytes) : HookComponent Nat (Error × Nat) :=
  fun followCount result remaining =>
    match target result with
    | none => .ok (followCount, result, remaining)
    | some t =>
        if followCount + 1 ≥ maxFollow then
          .error (⟨.error, "infinite symlink recursion in path '%1%'", [remaining]⟩, followCount)
        else
          let remaining := t ++ remaining
          if remaining.head? = some 47 then .ok (followCount + 1, [], remaining)
          else
            let result := parentPath result
            .ok (followCount + 1, if result = str "/" then [] else result, remaining)

/-- `canonPath(path, resolveSymlinks)`. -/
def canonPath (fs : Symlinks) (rounds : Nat) (path : Bytes) (resolveSymlinks : Bool) :
    Option (Except (Error × Nat) Bytes) :=
  if path = [] then some (.error (⟨.error, "cannot canonicalise an empty path", []⟩, 0))
  else if path.head? ≠ some 47 then some (.error (⟨.error, "not an absolute path: %s", [path]⟩, 0))
  else
    (canonPathInner (followSymlinks (if resolveSymlinks then fs.target else fun _ => none))
      rounds 0 path).map fun r => r.map Prod.snd

/-! ## Resolution by components -/

/-- What is resolved, and the components still to come. -/
abbrev Walk := List Name × List Name

/-- A component that names an entry. -/
structure IsEntry (comp : Name) : Prop where
  ne_nil : comp ≠ []
  ne_dot : comp ≠ str "."
  ne_up : comp ≠ str ".."

/-- One component, and how many links are followed for it. -/
inductive Step (target : Bytes → Option Bytes) : Walk → Nat → Walk → Prop
  | skip {stack : List Name} {comp : Name} {todo : List Name} (h : comp = [] ∨ comp = str ".") :
      Step target (stack, comp :: todo) 0 (stack, todo)
  | up {stack todo : List Name} : Step target (stack, str ".." :: todo) 0 (stack.dropLast, todo)
  | name {stack : List Name} {comp : Name} {todo : List Name} (h : IsEntry comp)
      (hlink : target (slashed (stack ++ [comp])) = none) :
      Step target (stack, comp :: todo) 0 (stack ++ [comp], todo)
  | follow {stack : List Name} {comp t : Name} {todo : List Name} (h : IsEntry comp)
      (hlink : target (slashed (stack ++ [comp])) = some t) :
      Step target (stack, comp :: todo) 1
        (if t.head? = some 47 then [] else stack, splitPath t ++ todo)

inductive Steps (target : Bytes → Option Bytes) : Walk → Nat → Walk → Prop
  | refl (w : Walk) : Steps target w 0 w
  | head {w w' w'' : Walk} {m n : Nat} (h : Step target w m w') (hs : Steps target w' n w'') :
      Steps target w (m + n) w''

section Steps

variable {target : Bytes → Option Bytes} {w w' w'' : Walk} {m n : Nat} {stack todo : List Name}

theorem Step.steps (h : Step target w m w') : Steps target w m w' := Steps.head h (Steps.refl w')

theorem Steps.trans (h : Steps target w m w') (h' : Steps target w' n w'') :
    Steps target w (m + n) w'' := by
  induction h with
  | refl => rwa [Nat.zero_add]
  | head hstep _ ih =>
      rw [Nat.add_assoc]
      exact Steps.head hstep (ih h')

theorem not_isEntry_skip {comp : Name} (h : comp = [] ∨ comp = str ".") : ¬ IsEntry comp :=
  fun hentry => h.elim hentry.ne_nil hentry.ne_dot

/-- There is one way to go on. -/
theorem Step.det (h : Step target w m w') (h' : Step target w n w'') : m = n ∧ w' = w'' := by
  have hup : ¬ IsEntry (str "..") := fun hentry => hentry.ne_up rfl
  have hskip : ¬ (str ".." = [] ∨ str ".." = str ".") := by decide
  cases h with
  | skip hcomp =>
      cases h' with
      | skip => exact ⟨rfl, rfl⟩
      | up => exact absurd hcomp hskip
      | name hentry => exact absurd hentry (not_isEntry_skip hcomp)
      | follow hentry => exact absurd hentry (not_isEntry_skip hcomp)
  | up =>
      cases h' with
      | skip hcomp => exact absurd hcomp hskip
      | up => exact ⟨rfl, rfl⟩
      | name hentry => exact absurd hentry hup
      | follow hentry => exact absurd hentry hup
  | name hentry hlink =>
      cases h' with
      | skip hcomp => exact absurd hentry (not_isEntry_skip hcomp)
      | up => exact absurd hentry hup
      | name => exact ⟨rfl, rfl⟩
      | follow _ hlink' =>
          rw [hlink] at hlink'
          cases hlink'
  | follow hentry hlink =>
      cases h' with
      | skip hcomp => exact absurd hentry (not_isEntry_skip hcomp)
      | up => exact absurd hentry hup
      | name _ hlink' =>
          rw [hlink] at hlink'
          cases hlink'
      | follow _ hlink' =>
          rw [hlink] at hlink'
          cases hlink'
          exact ⟨rfl, rfl⟩

/-- A path has one resolution. -/
theorem Steps.det {stack' : List Name} (h : Steps target w m (stack, []))
    (h' : Steps target w n (stack', [])) : m = n ∧ stack = stack' := by
  generalize hend : (stack, ([] : List Name)) = wend at h
  induction h generalizing n with
  | refl =>
      subst hend
      cases h' with
      | refl => exact ⟨rfl, rfl⟩
      | head hstep _ => cases hstep
  | head hstep _ ih =>
      subst hend
      cases h' with
      | refl => cases hstep
      | head hstep' hs' =>
          obtain ⟨rfl, rfl⟩ := hstep.det hstep'
          obtain ⟨rfl, rfl⟩ := ih hs' rfl
          exact ⟨rfl, rfl⟩

/-- What holds of a walk at all times: entries without a slash, none of them a link. -/
structure Resolved (target : Bytes → Option Bytes) (w : Walk) : Prop where
  entries : ∀ comp ∈ w.1, IsEntry comp
  noSlash : NoSlash w.1
  noSlash_todo : NoSlash w.2
  noLink : ∀ init, init <+: w.1 → init ≠ [] → target (slashed init) = none

theorem Step.resolved (h : Step target w m w') (hw : Resolved target w) : Resolved target w' := by
  have htodo : ∀ {comp : Name} {todo : List Name}, NoSlash (comp :: todo) → NoSlash todo :=
    fun hall name hname => hall name (List.mem_cons_of_mem _ hname)
  cases h with
  | skip => exact ⟨hw.entries, hw.noSlash, htodo hw.noSlash_todo, hw.noLink⟩
  | up =>
      refine ⟨fun comp hcomp => hw.entries comp (List.mem_of_mem_dropLast hcomp), hw.noSlash.dropLast,
        htodo hw.noSlash_todo, fun init hinit => hw.noLink init ?_⟩
      exact hinit.trans (List.dropLast_prefix _)
  | @name stack comp todo hentry hlink =>
      have hcomp : NoSlash [comp] := fun name hname => by
        rw [List.mem_singleton.mp hname]
        exact hw.noSlash_todo comp List.mem_cons_self
      refine ⟨fun name hname => ?_, noSlash_append.mpr ⟨hw.noSlash, hcomp⟩, htodo hw.noSlash_todo,
        fun init hinit hne => ?_⟩
      · rcases List.mem_append.mp hname with hold | hnew
        · exact hw.entries name hold
        · rw [List.mem_singleton.mp hnew]
          exact hentry
      · rcases List.prefix_concat_iff.mp hinit with heq | hold
        · rw [heq]
          exact hlink
        · exact hw.noLink init hold hne
  | @follow stack comp t todo hentry hlink =>
      have htodo' : NoSlash (splitPath t ++ todo) :=
        noSlash_append.mpr ⟨noSlash_splitPath t, htodo hw.noSlash_todo⟩
      split
      · refine ⟨List.forall_mem_nil _, List.forall_mem_nil _, htodo', fun init hinit hne => ?_⟩
        exact absurd (List.prefix_nil.mp hinit) hne
      · exact ⟨hw.entries, hw.noSlash, htodo', hw.noLink⟩

theorem Steps.resolved (h : Steps target w n w') (hw : Resolved target w) : Resolved target w' := by
  induction h with
  | refl => exact hw
  | head hstep _ ih => exact ih (hstep.resolved hw)

theorem steps_skipSlashes (stack : List Name) (remaining : Bytes) :
    Steps target (stack, splitPath remaining) 0 (stack, splitPath (remaining.dropWhile (· = 47))) := by
  induction remaining with
  | nil => exact Steps.refl _
  | cons c rest ih =>
      by_cases hc : c = 47
      · have hfirst : Step target (stack, splitPath (c :: rest)) 0 (stack, splitPath rest) := by
          rw [hc, splitPath_slash]
          exact Step.skip (Or.inl rfl)
        have hskip : (c :: rest).dropWhile (· = 47) = rest.dropWhile (· = 47) := by simp [hc]
        rw [hskip]
        exact Steps.head hfirst ih
      · have hskip : (c :: rest).dropWhile (· = 47) = c :: rest := by simp [hc]
        rw [hskip]
        exact Steps.refl _

end Steps

/-! ## The loop -/

/-- How the loop ends: with the resolution, or at a link that is one too many. -/
def LoopEnds (target : Bytes → Option Bytes) (followCount : Nat) (w : Walk) :
    Except (Error × Nat) (Nat × Bytes) → Prop
  | .ok (count, result) => ∃ n stack, Steps target w n (stack, []) ∧ count = followCount + n ∧
      count < maxFollow ∧ result = slashed stack
  | .error (e, followed) => ∃ n stack comp todo t rest, Steps target w n (stack, comp :: todo) ∧
      IsEntry comp ∧ target (slashed (stack ++ [comp])) = some t ∧ followed = followCount + n ∧
      followed + 1 = maxFollow ∧ e = ⟨.error, "infinite symlink recursion in path '%1%'", [rest]⟩

section Ends

variable {target : Bytes → Option Bytes} {followCount m : Nat} {w w' : Walk}
  {x : Except (Error × Nat) (Nat × Bytes)} {stack todo : List Name}

theorem LoopEnds.of_steps (h : Steps target w m w') (hends : LoopEnds target (followCount + m) w' x) :
    LoopEnds target followCount w x := by
  cases x with
  | ok r =>
      obtain ⟨n, stack, hsteps, hcount, hmax, hresult⟩ := hends
      exact ⟨m + n, stack, h.trans hsteps, by omega, hmax, hresult⟩
  | error r =>
      obtain ⟨n, stack, comp, todo, t, rest, hsteps, hentry, hlink, hcount, hmax, he⟩ := hends
      exact ⟨m + n, stack, comp, todo, t, rest, h.trans hsteps, hentry, hlink, by omega, hmax, he⟩

/-- The empty component before a slash is skipped first. -/
theorem Steps.of_skip {n : Nat} (h : Steps target (stack, [] :: todo) n w')
    (hne : w' ≠ (stack, [] :: todo)) : Steps target (stack, todo) n w' := by
  cases h with
  | refl => exact absurd rfl hne
  | head hstep hs =>
      obtain ⟨rfl, rfl⟩ := hstep.det (Step.skip (Or.inl rfl))
      rwa [Nat.zero_add]

theorem LoopEnds.of_skip (h : LoopEnds target followCount (stack, [] :: todo) x) :
    LoopEnds target followCount (stack, todo) x := by
  cases x with
  | ok r =>
      obtain ⟨n, stack', hsteps, hrest⟩ := h
      exact ⟨n, stack', hsteps.of_skip (by simp), hrest⟩
  | error r =>
      obtain ⟨n, stack', comp, todo', t, rest, hsteps, hentry, hrest⟩ := h
      refine ⟨n, stack', comp, todo', t, rest, hsteps.of_skip ?_, hentry, hrest⟩
      intro heq
      exact hentry.ne_nil (List.cons.inj (Prod.mk.inj heq).2).1

end Ends

theorem splitPath_append {t rest : Bytes} {names : List Name} (hrest : AtSlash rest)
    (hnames : splitPath rest = [] :: names) : splitPath (t ++ rest) = splitPath t ++ names := by
  rcases hrest with rfl | ⟨r, rfl⟩
  · have hnil : names = [] := (List.cons.inj (hnames.symm.trans (List.splitOn_nil 47))).2
    rw [hnil, List.append_nil, List.append_nil]
  · have htail : splitPath r = names := by
      rw [splitPath_slash] at hnames
      exact (List.cons.inj hnames).2
    rw [splitPath_append_slash, htail]

/-- No stack of entries ends with a slash. -/
theorem rdropWhile_slash {stack : List Name} (hslash : NoSlash stack)
    (hne : ∀ comp ∈ stack, comp ≠ []) : (slashed stack).rdropWhile (· = 47) = slashed stack := by
  rcases List.eq_nil_or_concat' stack with rfl | ⟨init, last, rfl⟩
  · rfl
  · rcases List.eq_nil_or_concat' last with rfl | ⟨l, c, rfl⟩
    · exact absurd rfl (hne [] (by simp))
    · have hc : c ≠ 47 := fun heq => hslash (l ++ [c]) (by simp) (by simp [heq])
      rw [slashed_append, show slashed [l ++ [c]] = (47 :: l) ++ [c] by simp, ← List.append_assoc,
        List.rdropWhile_concat_neg _ _ _ (by simpa using hc)]

/-- A relative target is looked up where the link is. -/
theorem parentPath_slashed {stack : List Name} {comp : Name} (hslash : NoSlash (stack ++ [comp]))
    (hne : ∀ name ∈ stack, name ≠ []) :
    (if parentPath (slashed (stack ++ [comp])) = str "/" then []
      else parentPath (slashed (stack ++ [comp]))) = slashed stack := by
  obtain ⟨hstack, hcomp⟩ := noSlash_append.mp hslash
  have hdir : ((slashed (stack ++ [comp])).rdropWhile (· ≠ 47)).rdropWhile (· = 47) = slashed stack := by
    rw [slashed_append, show slashed [comp] = 47 :: comp by simp,
      rdropWhile_slashed stack (hcomp comp List.mem_cons_self),
      List.rdropWhile_concat_pos _ _ _ (by simp), rdropWhile_slash hstack hne]
  rw [parentPath, hdir]
  cases stack with
  | nil => rfl
  | cons name stack =>
      have hname := hne name List.mem_cons_self
      have hroot : slashed (name :: stack) ≠ str "/" := by
        rw [slashed_cons]
        intro heq
        exact hname (List.append_eq_nil_iff.mp (List.cons.inj heq).2).1
      rw [if_neg (mt slashed_eq_nil.mp (List.cons_ne_nil _ _)), if_neg hroot]

/-- A link that may still be followed: its target comes first, looked up from the root or
from where the link is. -/
theorem followSymlinks_link (fs : Symlinks) {followCount : Nat} {stack : List Name} {comp t : Name}
    (hslash : NoSlash (stack ++ [comp])) (hne : ∀ name ∈ stack, name ≠ [])
    (hlink : fs.target (slashed (stack ++ [comp])) = some t) (hmax : followCount + 1 < maxFollow)
    (rest : Bytes) :
    followSymlinks fs.target followCount (slashed (stack ++ [comp])) rest =
      .ok (followCount + 1, slashed (if t.head? = some 47 then [] else stack), t ++ rest) := by
  have hhead : (t ++ rest).head? = t.head? :=
    List.head?_append_of_ne_nil t (fs.target_ne_nil _ _ hlink)
  rw [followSymlinks, hlink]
  dsimp only
  rw [if_neg (by omega), hhead]
  split
  · rfl
  · rw [parentPath_slashed hslash hne]

/-- The loop ends, with what the components resolve to: every round takes something off the
rest, or uses up one of the links that may still be followed. -/
theorem canonPathLoop_ends (fs : Symlinks) (links : Nat) {followCount : Nat} {stack : List Name}
    (remaining : Bytes) (hlinks : followCount + links + 1 = maxFollow) (hslash : NoSlash stack)
    (hne : ∀ name ∈ stack, name ≠ []) :
    ∃ rounds x, canonPathLoop (followSymlinks fs.target) rounds followCount (slashed stack) remaining =
      some x ∧ LoopEnds fs.target followCount (stack, splitPath remaining) x := by
  have hskip := @steps_skipSlashes fs.target stack remaining
  by_cases hnil : remaining.dropWhile (· = 47) = []
  · rw [hnil] at hskip
    have hdone : Steps fs.target (stack, splitPath []) 0 (stack, []) := by
      rw [splitPath, List.splitOn_nil]
      exact (Step.skip (Or.inl rfl)).steps
    exact ⟨1, _, canonPathLoop_nil _ hnil 0 _ _, 0, stack, hskip.trans hdone, rfl, by omega, rfl⟩
  · obtain ⟨comp, rest, hcomp, htake, hlen⟩ := component_skipSlashes hnil
    obtain ⟨names, hrest, hsplit⟩ := splitPath_component hcomp.noSlash hcomp.atSlash
    rw [hcomp.split, hsplit] at hskip
    have hround := canonPathLoop_component (followSymlinks fs.target) hslash hcomp htake
    -- what follows the component is resolved by the rounds after this one
    have hgoOn : ∀ {stack' : List Name} {x : Except (Error × Nat) (Nat × Bytes)},
        Step fs.target (stack, comp :: names) 0 (stack', names) →
        LoopEnds fs.target followCount (stack', splitPath rest) x →
        LoopEnds fs.target followCount (stack, splitPath remaining) x := by
      intro stack' x hstep hends
      rw [hrest] at hends
      exact LoopEnds.of_steps (hskip.trans hstep.steps) hends.of_skip
    by_cases hdot : comp = str "."
    · obtain ⟨rounds, x, hrun, hends⟩ := canonPathLoop_ends fs links rest hlinks hslash hne
      refine ⟨rounds + 1, x, ?_, hgoOn (Step.skip (Or.inr hdot)) hends⟩
      rw [hround, if_pos hdot, hrun]
    · by_cases hup : comp = str ".."
      · obtain ⟨rounds, x, hrun, hends⟩ := canonPathLoop_ends fs links rest hlinks hslash.dropLast
          fun name hname => hne name (List.mem_of_mem_dropLast hname)
        refine ⟨rounds + 1, x, ?_, hgoOn (hup ▸ Step.up) hends⟩
        rw [hround, if_neg hdot, if_pos hup, hrun]
      · have hentry : IsEntry comp := ⟨hcomp.ne_nil, hdot, hup⟩
        have hstack : NoSlash (stack ++ [comp]) := noSlash_append.mpr
          ⟨hslash, fun name hname => by rw [List.mem_singleton.mp hname]; exact hcomp.noSlash⟩
        cases hlink : fs.target (slashed (stack ++ [comp])) with
        | none =>
            have hne' : ∀ name ∈ stack ++ [comp], name ≠ [] := by
              intro name hname
              rcases List.mem_append.mp hname with hold | hnew
              · exact hne name hold
              · rw [List.mem_singleton.mp hnew]
                exact hcomp.ne_nil
            obtain ⟨rounds, x, hrun, hends⟩ := canonPathLoop_ends fs links rest hlinks hstack hne'
            refine ⟨rounds + 1, x, ?_, hgoOn (Step.name hentry hlink) hends⟩
            rw [hround, if_neg hdot, if_neg hup, followSymlinks, hlink]
            exact hrun
        | some t =>
            by_cases hmany : followCount + 1 ≥ maxFollow
            · refine ⟨1, .error (⟨.error, _, [rest]⟩, followCount), ?_, 0, stack, comp, names, t, rest, hskip,
                hentry, hlink, rfl, by omega, rfl⟩
              rw [hround, if_neg hdot, if_neg hup, followSymlinks, hlink]
              dsimp only
              rw [if_pos hmany]
            · have hhead : (t ++ rest).head? = t.head? :=
                List.head?_append_of_ne_nil t (fs.target_ne_nil _ _ hlink)
              have hless : links - 1 < links := by omega
              have hfollow : Steps fs.target (stack, splitPath remaining) 1
                  (if t.head? = some 47 then [] else stack, splitPath (t ++ rest)) := by
                rw [splitPath_append hcomp.atSlash hrest]
                exact hskip.trans (Step.follow hentry hlink).steps
              have hhook := followSymlinks_link fs hstack hne hlink (Nat.not_le.mp hmany) rest
              have hslash' : NoSlash (if t.head? = some 47 then [] else stack) := by
                split
                · exact List.forall_mem_nil _
                · exact hslash
              have hne' : ∀ name ∈ (if t.head? = some 47 then [] else stack), name ≠ [] := by
                split
                · exact List.forall_mem_nil _
                · exact hne
              obtain ⟨rounds, x, hrun, hends⟩ := canonPathLoop_ends fs (links - 1) (t ++ rest)
                (show followCount + 1 + (links - 1) + 1 = maxFollow by omega) hslash' hne'
              refine ⟨rounds + 1, x, ?_, LoopEnds.of_steps hfollow hends⟩
              rw [hround, if_neg hdot, if_neg hup, hhook]
              exact hrun
termination_by (links, remaining.length)

/-- More rounds than it takes change nothing. -/
theorem canonPathLoop_mono {σ ε : Type} {hook : HookComponent σ ε} {rounds : Nat} {s : σ}
    {result remaining : Bytes} {x : Except ε (σ × Bytes)}
    (h : canonPathLoop hook rounds s result remaining = some x) (more : Nat) :
    canonPathLoop hook (rounds + more) s result remaining = some x := by
  induction rounds generalizing s result remaining with
  | zero => cases h
  | succ rounds ih =>
      rw [Nat.add_right_comm]
      rw [canonPathLoop] at h ⊢
      dsimp only at h ⊢
      split
      · rwa [if_pos ‹_›] at h
      · rw [if_neg ‹_›] at h
        split
        · rw [if_pos ‹_›] at h
          exact ih h
        · rw [if_neg ‹_›] at h
          split
          · rw [if_pos ‹_›] at h
            exact ih h
          · rw [if_neg ‹_›] at h
            split
            · rename_i hhook
              rw [hhook] at h
              exact ih h
            · rename_i hhook
              rwa [hhook] at h

theorem canonical_abs {stack : List Name} (hentries : ∀ comp ∈ stack, IsEntry comp)
    (hslash : NoSlash stack) (hnull : (0 : UInt8) ∉ CanonPath.abs stack) :
    (CanonString.mk (CanonPath.abs stack)).Canonical := by
  refine CanonString.canonical_ofNames fun comp hcomp => ?_
  have hentry := hentries comp hcomp
  refine ⟨hentry.ne_nil, hentry.ne_dot, hentry.ne_up, hslash comp hcomp, fun hmem => hnull ?_⟩
  rw [CanonPath.abs_eq, if_neg (mt slashed_eq_nil.mp (List.ne_nil_of_mem hcomp))]
  exact List.mem_flatMap.mpr ⟨comp, hcomp, List.mem_cons_of_mem _ hmem⟩

/-- What `canonPath(path, true)` is to return. -/
structure IsResolution (fs : Symlinks) (path result : Bytes) : Prop where
  /-- It is written without `.`, `..`, and superfluous slashes. -/
  canonical : (0 : UInt8) ∉ result → (CanonString.mk result).Canonical
  resolved : ∃ n stack, Steps fs.target ([], splitPath path) n (stack, []) ∧
    (∀ n' stack', Steps fs.target ([], splitPath path) n' (stack', []) → stack' = stack) ∧
    result = CanonPath.abs stack ∧
    ∀ init, init <+: stack → init ≠ [] → fs.target (slashed init) = none

/-- Which exceptions it may throw: at a link, when 1023 have been followed. -/
structure IsTooMany (fs : Symlinks) (path : Bytes) (e : Error) (followed : Nat) : Prop where
  error : ∃ rest, e = ⟨.error, "infinite symlink recursion in path '%1%'", [rest]⟩
  followed : followed = 1023
  link : ∃ stack comp todo t, Steps fs.target ([], splitPath path) 1023 (stack, comp :: todo) ∧
    IsEntry comp ∧ fs.target (slashed (stack ++ [comp])) = some t

theorem resolved_start (fs : Symlinks) (path : Bytes) : Resolved fs.target ([], splitPath path) :=
  ⟨List.forall_mem_nil _, List.forall_mem_nil _, noSlash_splitPath path,
    fun _ hinit hne => absurd (List.prefix_nil.mp hinit) hne⟩

/-- `/a` points to `b`, and `/b` to nothing. -/
def oneLink : Symlinks where
  target p := if p = str "/a" then some (str "b") else none
  target_ne_nil p t h := by
    split at h
    · cases h
      exact List.cons_ne_nil _ _
    · cases h

/-- `/a` points to `a`. -/
def selfLink : Symlinks where
  target p := if p = str "/a" then some (str "a") else none
  target_ne_nil p t h := by
    split at h
    · cases h
      exact List.cons_ne_nil _ _
    · cases h

theorem canonPathLoop_selfLink (rounds n : Nat) (h : n < maxFollow) :
    canonPathLoop (followSymlinks selfLink.target) (rounds + n) 0 [] (str "a") =
      canonPathLoop (followSymlinks selfLink.target) rounds n [] (str "a") := by
  induction n generalizing rounds with
  | zero => rfl
  | succ n ih =>
      have hcomp : Component ((str "a").dropWhile (· = 47)) (str "a") [] :=
        ⟨by decide +kernel, by decide +kernel, by decide +kernel, Or.inl rfl⟩
      have htarget : selfLink.target (slashed ([] ++ [str "a"])) = some (str "a") := by decide +kernel
      have hslash : NoSlash ([] ++ [str "a"]) := by
        show ∀ name ∈ [str "a"], (47 : UInt8) ∉ name
        decide +kernel
      have hhook := followSymlinks_link selfLink hslash (List.forall_mem_nil _) htarget h []
      have hround := canonPathLoop_component (followSymlinks selfLink.target) (List.forall_mem_nil _) hcomp
        (by decide +kernel) rounds n
      rw [slashed_nil, if_neg (by decide +kernel), if_neg (by decide +kernel), hhook] at hround
      rw [show rounds + (n + 1) = rounds + 1 + n by omega, ih (rounds + 1) (by omega), hround]
      rfl

end Util
end Archinix
