import Archinix.Util.FileTree
import Mathlib.Data.List.DropRight

/-!
# The path canonicalisation loop

`canonPathInner` of `file-path-impl.hh`, on strings as the source has them: the
result grows by a slash and a component, `..` cuts it off at its last slash, and a
callback may change the result and the rest of the path after each component.

Beside it stands what the loop is for: a stack of components, onto which the
stretches between the slashes of the path are put one after the other.  Without a
callback the result is that stack, written out (`canonPathLoop_plain`).
-/

namespace Archinix
namespace Util

/-! ## The loop of the source -/

/-- `hookComponent`: a callback with a state of its own, given the result so far and
the rest of the path. -/
abbrev HookComponent (σ ε : Type) := σ → Bytes → Bytes → Except ε (σ × Bytes × Bytes)

/-- `result.erase(result.rfind('/'))`, of a result with a slash in it. -/
def eraseLast (result : Bytes) : Bytes := (result.rdropWhile (· ≠ 47)).dropLast

section Loop

variable {σ ε : Type} (hook : HookComponent σ ε)

/-- The rounds of the loop, at most so many of them. -/
def canonPathLoop : (rounds : Nat) → σ → (result remaining : Bytes) → Option (Except ε (σ × Bytes))
  | 0, _, _, _ => none
  | rounds + 1, s, result, remaining =>
      -- skip slashes
      let remaining := remaining.dropWhile (· = 47)
      if remaining = [] then some (.ok (s, result))
      else
        let nextComp := remaining.takeWhile (· ≠ 47)
        if nextComp = str "." then canonPathLoop rounds s result (remaining.drop 1)
        else if nextComp = str ".." then
          canonPathLoop rounds s (if result = [] then result else eraseLast result)
            (remaining.drop 2)
        else
          match hook s (result ++ 47 :: nextComp) (remaining.drop nextComp.length) with
          | .ok (s, result, remaining) => canonPathLoop rounds s result remaining
          | .error e => some (.error e)

/-- `canonPathInner`; the callback starts in the state `s`. -/
def canonPathInner (rounds : Nat) (s : σ) (path : Bytes) : Option (Except ε (σ × Bytes)) :=
  (canonPathLoop hook rounds s [] path).map fun r =>
    r.map fun (s, result) => (s, if result = [] then str "/" else result)

end Loop

/-- The callback that does nothing. -/
def noHook : HookComponent Unit Empty := fun s result remaining => .ok (s, result, remaining)

/-! ## Stacks of components -/

/-- The stretches between the slashes. -/
def splitPath (path : Bytes) : List Name := path.splitOn 47

/-- One more component: `.` and the empty one change nothing, `..` takes the last one
off, at the root nothing. -/
def pushComponent (stack : List Name) (comp : Name) : List Name :=
  if comp = [] ∨ comp = str "." then stack
  else if comp = str ".." then stack.dropLast
  else stack ++ [comp]

/-- The component stack of a path. -/
def normalise (path : Bytes) : List Name := (splitPath path).foldl pushComponent []

/-- Each component behind a slash. -/
def slashed (stack : List Name) : Bytes := stack.flatMap fun name => 47 :: name

theorem CanonPath.abs_eq (stack : CanonPath) :
    CanonPath.abs stack = if slashed stack = [] then str "/" else slashed stack := by
  cases stack <;> rfl

@[simp] theorem slashed_nil : slashed [] = [] := rfl

@[simp] theorem slashed_cons (name : Name) (stack : List Name) :
    slashed (name :: stack) = 47 :: (name ++ slashed stack) := by
  simp [slashed]

@[simp] theorem slashed_append (stack names : List Name) :
    slashed (stack ++ names) = slashed stack ++ slashed names := by
  simp [slashed]

theorem slashed_eq_nil {stack : List Name} : slashed stack = [] ↔ stack = [] := by
  cases stack <;> simp

/-- No component has a slash in it. -/
def NoSlash (stack : List Name) : Prop := ∀ name ∈ stack, (47 : UInt8) ∉ name

theorem noSlash_append {stack names : List Name} :
    NoSlash (stack ++ names) ↔ NoSlash stack ∧ NoSlash names := by
  simp only [NoSlash, List.mem_append]
  exact ⟨fun h => ⟨fun n hn => h n (Or.inl hn), fun n hn => h n (Or.inr hn)⟩,
    fun h n hn => hn.elim (h.1 n) (h.2 n)⟩

theorem NoSlash.dropLast {stack : List Name} (h : NoSlash stack) : NoSlash stack.dropLast :=
  fun name hname => h name (List.mem_of_mem_dropLast hname)

/-- Cutting off behind the last slash takes the name of the last component off. -/
theorem rdropWhile_slashed (init : List Name) {last : Name} (h : (47 : UInt8) ∉ last) :
    (slashed init ++ 47 :: last).rdropWhile (· ≠ 47) = slashed init ++ [47] := by
  rw [List.rdropWhile, List.reverse_append, List.reverse_cons, List.append_assoc,
    List.dropWhile_append_of_pos]
  · simp
  · intro c hc
    have hne : c ≠ 47 := fun heq => h (heq ▸ List.mem_reverse.mp hc)
    simpa using hne

/-- Cutting off at the last slash takes the last component off. -/
theorem eraseLast_slashed {stack : List Name} (h : NoSlash stack) :
    eraseLast (slashed stack) = slashed stack.dropLast := by
  rcases List.eq_nil_or_concat' stack with rfl | ⟨init, last, rfl⟩
  · rfl
  · rw [slashed_append, show slashed [last] = 47 :: last by simp, eraseLast,
      rdropWhile_slashed init (h last (by simp)), List.dropLast_concat, List.dropLast_concat]

/-! ## What a round reads -/

/-- The rest of a path at the end of a component: nothing, or a slash and more. -/
def AtSlash (remaining : Bytes) : Prop := remaining = [] ∨ ∃ rest, remaining = 47 :: rest

theorem splitPath_slash (rest : Bytes) : splitPath (47 :: rest) = [] :: splitPath rest :=
  List.splitOn_append_cons_self_of_not_mem (show (47 : UInt8) ∉ ([] : Name) by simp) rest

/-- A component is split off from what follows it. -/
theorem splitPath_component {comp remaining : Bytes} (hcomp : (47 : UInt8) ∉ comp)
    (hremaining : AtSlash remaining) :
    ∃ rest, splitPath remaining = [] :: rest ∧ splitPath (comp ++ remaining) = comp :: rest := by
  rcases hremaining with rfl | ⟨rest, rfl⟩
  · refine ⟨[], List.splitOn_nil 47, ?_⟩
    rw [List.append_nil]
    exact List.splitOn_eq_singleton hcomp
  · exact ⟨splitPath rest, splitPath_slash rest,
      List.splitOn_append_cons_self_of_not_mem hcomp rest⟩

theorem noSlash_splitPath (path : Bytes) : NoSlash (splitPath path) := by
  induction path with
  | nil => simp [NoSlash, splitPath, List.splitOn_nil]
  | cons c rest ih =>
      rw [splitPath, List.splitOn_cons_eq_if_modifyHead]
      by_cases hc : c = 47
      · rw [if_pos (by simpa using hc)]
        intro n hn
        rcases List.mem_cons.mp hn with rfl | hn
        · simp
        · exact ih n hn
      · rw [if_neg (by simpa using hc)]
        rcases hrest : splitPath rest with - | ⟨name, names⟩
        · exact absurd hrest (List.splitOn_ne_nil 47 rest)
        · rw [hrest] at ih
          rw [show List.splitOn 47 rest = name :: names from hrest, List.modifyHead_cons]
          intro n hn
          rcases List.mem_cons.mp hn with rfl | hn
          · simp [Ne.symm hc, ih name (by simp)]
          · exact ih n (List.mem_cons_of_mem _ hn)

/-- The first component of a path that does not begin with a slash. -/
structure Component (remaining comp rest : Bytes) : Prop where
  split : remaining = comp ++ rest
  ne_nil : comp ≠ []
  noSlash : (47 : UInt8) ∉ comp
  atSlash : AtSlash rest

theorem head?_skipSlashes (remaining : Bytes) :
    (remaining.dropWhile (· = 47)).head? ≠ some 47 := by
  induction remaining with
  | nil => simp
  | cons c rest ih =>
      by_cases hc : c = 47
      · simpa [hc] using ih
      · simp [hc]

/-- A round reads the first component. -/
theorem component_takeWhile {remaining : Bytes} (hne : remaining ≠ [])
    (hhead : remaining.head? ≠ some 47) :
    Component remaining (remaining.takeWhile (· ≠ 47)) (remaining.dropWhile (· ≠ 47)) where
  split := List.takeWhile_append_dropWhile.symm
  ne_nil := by
    rcases remaining with - | ⟨c, rest⟩
    · exact absurd rfl hne
    · have hc : c ≠ 47 := fun heq => hhead (by simp [heq])
      simp [hc]
  noSlash := by
    intro hmem
    have hpred := List.mem_takeWhile_imp hmem
    simp at hpred
  atSlash := by
    have hrest : ∀ l : Bytes, AtSlash (l.dropWhile (· ≠ 47)) := by
      intro l
      induction l with
      | nil => exact Or.inl rfl
      | cons c rest ih =>
          by_cases hc : c = 47
          · exact Or.inr ⟨rest, by simp [hc]⟩
          · simpa [hc] using ih
    exact hrest remaining

/-! ## The loop computes the stack -/

theorem pushComponent_empty (stack : List Name) : pushComponent stack [] = stack := by
  simp [pushComponent]

theorem foldl_skipSlashes (stack : List Name) (remaining : Bytes) :
    (splitPath (remaining.dropWhile (· = 47))).foldl pushComponent stack =
      (splitPath remaining).foldl pushComponent stack := by
  induction remaining with
  | nil => rfl
  | cons c rest ih =>
      by_cases hc : c = 47
      · rw [hc, splitPath_slash, List.foldl_cons, pushComponent_empty, ← ih]
        simp
      · simp [hc]

theorem foldl_component (stack : List Name) {remaining comp rest : Bytes}
    (h : Component remaining comp rest) :
    (splitPath remaining).foldl pushComponent stack =
      (splitPath rest).foldl pushComponent (pushComponent stack comp) := by
  obtain ⟨names, hrest, hsplit⟩ := splitPath_component h.noSlash h.atSlash
  rw [h.split, hsplit, hrest, List.foldl_cons, List.foldl_cons, pushComponent_empty]

theorem Component.length_lt {remaining comp rest : Bytes} (h : Component remaining comp rest) :
    rest.length < remaining.length := by
  have hpos := List.length_pos_of_ne_nil h.ne_nil
  rw [h.split, List.length_append]
  omega

section Rounds

variable {σ ε : Type} (hook : HookComponent σ ε)

theorem canonPathLoop_nil {remaining : Bytes} (h : remaining.dropWhile (· = 47) = []) (rounds : Nat)
    (s : σ) (result : Bytes) :
    canonPathLoop hook (rounds + 1) s result remaining = some (.ok (s, result)) := by
  rw [canonPathLoop]
  exact if_pos h

/-- A round with a component, on a result that is a stack. -/
theorem canonPathLoop_component {stack : List Name} (hstack : NoSlash stack)
    {remaining comp rest : Bytes} (hcomp : Component (remaining.dropWhile (· = 47)) comp rest)
    (htake : (remaining.dropWhile (· = 47)).takeWhile (· ≠ 47) = comp) (rounds : Nat) (s : σ) :
    canonPathLoop hook (rounds + 1) s (slashed stack) remaining =
      if comp = str "." then canonPathLoop hook rounds s (slashed stack) rest
      else if comp = str ".." then canonPathLoop hook rounds s (slashed stack.dropLast) rest
      else
        match hook s (slashed (stack ++ [comp])) rest with
        | .ok (s, result, remaining) => canonPathLoop hook rounds s result remaining
        | .error e => some (.error e) := by
  rw [canonPathLoop]
  generalize remaining.dropWhile (· = 47) = skipped at hcomp htake ⊢
  have hne : skipped ≠ [] := by
    rw [hcomp.split]
    exact List.append_ne_nil_of_left_ne_nil hcomp.ne_nil rest
  have hdrop : skipped.drop comp.length = rest := by rw [hcomp.split, List.drop_left]
  dsimp only
  rw [if_neg hne, htake]
  split
  · rename_i hdot
    rw [hdot] at hdrop
    rw [show skipped.drop 1 = rest from hdrop]
  · split
    · rename_i hup
      rw [hup] at hdrop
      have hresult : (if slashed stack = [] then slashed stack else eraseLast (slashed stack)) =
          slashed stack.dropLast := by
        split
        · rename_i hempty
          rw [slashed_eq_nil.mp hempty]
          rfl
        · exact eraseLast_slashed hstack
      rw [hresult, show skipped.drop 2 = rest from hdrop]
    · rw [hdrop, show slashed stack ++ 47 :: comp = slashed (stack ++ [comp]) by simp]

end Rounds

/-- The first component after the slashes. -/
theorem component_skipSlashes {remaining : Bytes} (h : remaining.dropWhile (· = 47) ≠ []) :
    ∃ comp rest, Component (remaining.dropWhile (· = 47)) comp rest ∧
      (remaining.dropWhile (· = 47)).takeWhile (· ≠ 47) = comp ∧ rest.length < remaining.length := by
  have hcomp := component_takeWhile h (head?_skipSlashes remaining)
  have hlen : (remaining.dropWhile (· = 47)).length ≤ remaining.length :=
    (List.dropWhile_sublist _).length_le
  exact ⟨_, _, hcomp, rfl, hcomp.length_lt.trans_le hlen⟩

/-- Without a callback the loop writes out the component stack; every round takes
something off the rest of the path. -/
theorem canonPathLoop_plain {rounds : Nat} {stack : List Name} {remaining : Bytes}
    (hstack : NoSlash stack) (hrounds : remaining.length < rounds) :
    canonPathLoop noHook rounds () (slashed stack) remaining =
      some (.ok ((), slashed ((splitPath remaining).foldl pushComponent stack))) := by
  induction rounds generalizing stack remaining with
  | zero => omega
  | succ rounds ih =>
      rw [← foldl_skipSlashes]
      by_cases hnil : remaining.dropWhile (· = 47) = []
      · rw [canonPathLoop_nil noHook hnil, hnil]
        rfl
      · obtain ⟨comp, rest, hcomp, htake, hlen⟩ := component_skipSlashes hnil
        rw [canonPathLoop_component noHook hstack hcomp htake, foldl_component stack hcomp]
        split
        · rename_i hdot
          rw [hdot]
          exact ih hstack (by omega)
        · rename_i hdot
          split
          · rename_i hup
            rw [hup]
            exact ih hstack.dropLast (by omega)
          · rename_i hup
            rw [show pushComponent stack comp = stack ++ [comp] by
              rw [pushComponent, if_neg (by simp [hcomp.ne_nil, hdot]), if_neg hup]]
            exact ih (noSlash_append.mpr ⟨hstack, by simpa [NoSlash] using hcomp.noSlash⟩) (by omega)

end Util
end Archinix
