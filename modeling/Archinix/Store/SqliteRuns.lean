import Archinix.Foundation.TransitionSystem
import Archinix.Store.SqliteTransactions

/-!
# Sequences of database updates

`registerValidPath` and `invalidatePathChecked` called one after the other on one
connection, whose statements may be busy or fail at any point.
-/

namespace Archinix
namespace Store
namespace Sqlite

open Foundation Util

/-- A call that updates the database. -/
inductive Call where
  /-- `registerValidPath`, while the clock shows `now`. -/
  | registerValidPath (now : Int) (info : ValidPathInfo)
  | invalidatePathChecked (path : StorePath)

namespace Call

variable (cfg : StoreDirConfig) [Sha256]

def run : Call → Action Unit
  | registerValidPath now info => Sqlite.registerValidPath cfg now info
  | invalidatePathChecked path => Sqlite.invalidatePathChecked cfg path

/-- The transaction of a call. -/
def reading : Call → Reading Unit
  | registerValidPath now info => registerTransaction cfg now info
  | invalidatePathChecked path => invalidateTransaction cfg path

end Call

/-- The whole effect of a call. -/
def Call.Effect (cfg : StoreDirConfig) (t t' : Tables) : Call → Prop
  | registerValidPath now info => Registers cfg now info t t'
  | invalidatePathChecked path => Invalidates cfg path t t'

/-- Calls on one connection, each with the outcomes that its statements meet. -/
def callSystem [Sha256] (cfg : StoreDirConfig) :
    TransitionSystem (Connection Tables) (Call × List Outcome) where
  init c := c = ⟨Tables.empty, none⟩
  step c l c' := (l.1.run cfg ⟨c, l.2⟩).2.connection = c'

section Runs

variable [Sha256] {cfg : StoreDirConfig} {c : Connection Tables}

theorem Call.run_atomically (call : Call) : Atomically (call.run cfg) (call.reading cfg) := by
  cases call with
  | registerValidPath now info => exact (registerTransaction_runs cfg now info).within.transaction.retry
  | invalidatePathChecked path => exact (invalidateTransaction_runs cfg path).within.transaction.retry

theorem Call.run_keeps (call : Call) : Keeps (fun t => t.Sound cfg) (call.run cfg) := by
  cases call with
  | registerValidPath now info => exact (registerTransaction_runs cfg now info).keeps.transaction.retry
  | invalidatePathChecked path => exact (invalidateTransaction_runs cfg path).keeps.transaction.retry

/-- In every reachable state the tables are sound, those of an open transaction too. -/
theorem sound_of_reachable (h : (callSystem cfg).Reachable c) : c.Holds fun t => t.Sound cfg := by
  refine h.invariant (fun c hc => ?_) fun c l c' hc hstep => ?_
  · obtain rfl : c = ⟨Tables.empty, none⟩ := hc
    exact ⟨Tables.sound_empty, by simp⟩
  · obtain rfl : (l.1.run cfg ⟨c, l.2⟩).2.connection = c' := hstep
    exact l.1.run_keeps ⟨c, l.2⟩ hc

theorem Call.effect_of_reading {t t' : Tables} (h : t.Sound cfg) {call : Call}
    (hrun : call.reading cfg t = .ok ((), t')) : call.Effect cfg t t' := by
  cases call with
  | registerValidPath now info => exact (registerTransaction_eq_ok h hrun).1
  | invalidatePathChecked path => exact invalidateTransaction_eq_ok h hrun

/-- A call commits its whole effect, or changes nothing. -/
theorem Call.run_cases (h : c.tables.Sound cfg) (call : Call) (script : List Outcome) :
    ((call.run cfg ⟨c, script⟩).1 = .ok () ∧
      call.Effect cfg c.tables (call.run cfg ⟨c, script⟩).2.connection.tables) ∨
    ∃ e, (call.run cfg ⟨c, script⟩).1 = .error e ∧
      (call.run cfg ⟨c, script⟩).2.connection.tables = c.tables := by
  rcases hres : (call.run cfg ⟨c, script⟩).1 with e | ⟨⟩
  · exact Or.inr ⟨e, rfl, call.run_atomically.error _ e hres⟩
  · exact Or.inl ⟨rfl, Call.effect_of_reading h (call.run_atomically.ok _ () hres)⟩

end Runs

/-- No statement fails, there are outcomes for `n` of them, and no transaction is left
open. -/
structure Undisturbed (n : Nat) (c : Connection Tables) (script : List Outcome) : Prop where
  closed : c.working = none
  smooth : Smooth script
  enough : n ≤ script.length

section Invalidate

variable {cfg : StoreDirConfig} {c : Connection Tables} {path : StorePath}

/-- `invalidatePathChecked` of a path that another one refers to. -/
theorem invalidatePathChecked_of_inUse (h : c.tables.Sound cfg) (hused : c.tables.InUse cfg path)
    (script : List Outcome) :
    ∃ e, (invalidatePathChecked cfg path ⟨c, script⟩).1 = .error e ∧
      (invalidatePathChecked cfg path ⟨c, script⟩).2.connection.tables = c.tables ∧
      (Undisturbed 6 c script → ∃ e', e = .thrown e' ∧ e'.cls = .pathInUse) := by
  obtain ⟨e', he', hcls⟩ := invalidateTransaction_of_inUse h hused
  have hruns := invalidateTransaction_runs cfg path
  have hatomic : Atomically (invalidatePathChecked cfg path) (invalidateTransaction cfg path) :=
    hruns.within.transaction.retry
  have hnot : ∀ a, (invalidatePathChecked cfg path ⟨c, script⟩).1 ≠ .ok a := by
    intro a hok
    have hspec := hatomic.ok _ a hok
    rw [he'] at hspec
    cases hspec
  rcases hres : (invalidatePathChecked cfg path ⟨c, script⟩).1 with e | a
  · refine ⟨e, rfl, hatomic.error _ e hres, fun hu => ?_⟩
    rcases hruns.within.transaction_ended hruns.takes (s := ⟨c, script⟩) hu.closed hu.smooth hu.enough
      with ⟨a, hok⟩ | ⟨e'', hthrown⟩
    · exact absurd hok (hnot a)
    · have hspec := hatomic.thrown _ e'' hthrown
      rw [he'] at hspec
      cases hspec
      exact ⟨e', Except.error.inj (hres.symm.trans hthrown), hcls⟩
  · exact absurd hres (hnot a)

/-- `invalidatePathChecked` of a path that none but itself refers to. -/
theorem invalidatePathChecked_of_not_inUse (h : c.tables.Sound cfg) {row : Row}
    (hrow : row ∈ c.tables.validPaths) (hpath : row.path = cfg.printStorePath path)
    (hfree : ¬ c.tables.InUse cfg path) (script : List Outcome) :
    (∀ e, (invalidatePathChecked cfg path ⟨c, script⟩).1 ≠ .error (.thrown e)) ∧
    ((invalidatePathChecked cfg path ⟨c, script⟩).1 = .ok () →
      (invalidatePathChecked cfg path ⟨c, script⟩).2.connection.tables = c.tables.without row) ∧
    (Undisturbed 6 c script → (invalidatePathChecked cfg path ⟨c, script⟩).1 = .ok ()) := by
  have hreading := invalidateTransaction_of_not_inUse h hrow hpath hfree
  have hruns := invalidateTransaction_runs cfg path
  have hatomic : Atomically (invalidatePathChecked cfg path) (invalidateTransaction cfg path) :=
    hruns.within.transaction.retry
  have hnot : ∀ e, (invalidatePathChecked cfg path ⟨c, script⟩).1 ≠ .error (.thrown e) := by
    intro e hthrown
    have hspec := hatomic.thrown _ e hthrown
    rw [hreading] at hspec
    cases hspec
  refine ⟨hnot, fun hok => ?_, fun hu => ?_⟩
  · have hspec := hatomic.ok _ () hok
    rw [hreading] at hspec
    exact (Prod.ext_iff.mp (Except.ok.inj hspec)).2.symm
  · rcases hruns.within.transaction_ended hruns.takes (s := ⟨c, script⟩) hu.closed hu.smooth hu.enough
      with ⟨⟨⟩, hok⟩ | ⟨e, hthrown⟩
    · exact hok
    · exact absurd hthrown (hnot e)

end Invalidate

namespace Example

def cfg : StoreDirConfig := .nixStore

def used : StorePath := ⟨str "00000000000000000000000000000000-a", by decide, by decide⟩

def user : StorePath := ⟨str "00000000000000000000000000000001-b", by decide, by decide⟩

/-- The fingerprint of a path named `c` with the null hash as its content address. -/
def fingerprint : Bytes := str "source:" ++ nullHash.base16 ++ str ":/nix/store:c"

def fingerprintHash : Hash :=
  [117, 210, 105, 111, 123, 46, 61, 62, 141, 36, 103, 24, 152, 4, 155, 184, 24, 165, 174, 72, 171, 118, 187, 142, 98, 127, 139, 34, 230, 40, 64, 167]

/-- SHA-256 on that fingerprint. -/
@[reducible] def sha256 : Sha256 := .ofTable [(fingerprint, fingerprintHash)] (by decide)

/-- A path without a content address. -/
def info (path : StorePath) (references : List StorePath) : ValidPathInfo :=
  ⟨path, nullHash, references, 1, 0, none⟩

def row (id : Nat) (path : StorePath) : Row :=
  ⟨id, cfg.printStorePath path, nullHash.base16, 1, none, none⟩

def connection : Connection Tables :=
  ⟨⟨[row 1 used, row 2 user], [(2, 2), (2, 1)], 2⟩, none⟩

def script : List Outcome := List.replicate 12 .done

/-- One path after the other is registered; the second refers to both. -/
theorem reachable : @TransitionSystem.Reachable _ _ (@callSystem sha256 cfg) connection := by
  let _ := sha256
  let empty : Connection Tables := ⟨Tables.empty, none⟩
  let first : Connection Tables := ⟨⟨[row 1 used], [], 1⟩, none⟩
  let registerFirst : Call := .registerValidPath 0 (info used [])
  let registerSecond : Call := .registerValidPath 0 (info user [user, used])
  have hempty : (callSystem cfg).Reachable empty := .of_init rfl
  have hfirst : (registerFirst.run cfg ⟨empty, script⟩).2.connection = first := by
    decide +kernel
  have hsecond : (registerSecond.run cfg ⟨first, script⟩).2.connection = connection := by
    decide +kernel
  exact (hempty.step (l := (registerFirst, script)) hfirst).step (l := (registerSecond, script)) hsecond

theorem inUse : connection.tables.InUse cfg used := by
  refine ⟨user, by decide, row 2 user, by decide, row 1 used, by decide, rfl, rfl, by decide⟩

theorem not_inUse : ¬ connection.tables.InUse cfg user := by
  rintro ⟨q, hne, a, ha, b, hb, hapath, hbpath, href⟩
  have hedges : ∀ a ∈ connection.tables.validPaths, ∀ b ∈ connection.tables.validPaths,
      b.path = cfg.printStorePath user → (a.id, b.id) ∈ connection.tables.refs →
        a.path = cfg.printStorePath user := by
    decide +kernel
  exact hne (cfg.printStorePath_injective (hapath.symm.trans (hedges a ha b hb hbpath href)))

end Example

end Sqlite
end Store
end Archinix
