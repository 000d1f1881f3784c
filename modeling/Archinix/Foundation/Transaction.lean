import Mathlib.Tactic

/-!
# Transactions over statements that may fail

A connection to a database whose statements may report that the database is busy, or
fail; code that runs statements inside a transaction, rolls back when an exception
leaves it, and tries again when the database was busy.  What the code does is written
over `MonadDatabase`, so that the same text has two readings: over `Sql`, on a
connection, and over `StateT T (Except ε)`, where no statement fails.

`Atomically` is the rule that connects the two: a retried transaction commits what the
second reading computes, once, or leaves the tables as they were.
-/

namespace Archinix
namespace Foundation

/-- How a statement ends.  An engine that reports an error may have rolled back the
transaction by itself. -/
inductive Outcome where
  | done
  | busy (aborted : Bool)
  | failed (aborted : Bool)
  deriving DecidableEq

/-- What is committed, and what an open transaction sees. -/
structure Connection (T : Type) where
  tables : T
  working : Option T
  deriving DecidableEq

/-- A connection and the outcomes of the statements to come, as far as they are
observed. -/
structure Session (T : Type) where
  connection : Connection T
  script : List Outcome

/-- Why code on a connection has no result. -/
inductive Failure (ε : Type) where
  | busy
  | failed
  | interrupted
  /-- The observation ends before the code does. -/
  | pending
  /-- The code has thrown an exception of its own, or a constraint was violated. -/
  | thrown (e : ε)

namespace Connection

variable {T : Type} (c : Connection T)

/-- What statements read. -/
def view : T := c.working.getD c.tables

/-- What a statement writes is committed at once outside a transaction. -/
def write (t : T) : Connection T :=
  match c.working with
  | some _ => { c with working := some t }
  | none => { c with tables := t }

def abort (aborted : Bool) : Connection T := if aborted then { c with working := none } else c

@[simp] theorem abort_tables (aborted : Bool) : (c.abort aborted).tables = c.tables := by
  unfold abort
  split <;> rfl

end Connection

theorem Failure.ne_busy {ε α : Type} {r : Except (Failure ε) α}
    (h : r = .error .pending ∨ (∃ a, r = .ok a) ∨ ∃ e, r = .error (.thrown e)) :
    r ≠ .error .busy := by
  rcases h with rfl | ⟨a, rfl⟩ | ⟨e, rfl⟩ <;> simp

/-- Code on a connection. -/
abbrev Sql (T ε α : Type) : Type := Session T → Except (Failure ε) α × Session T

/-- Code that runs statements and throws exceptions. -/
class MonadDatabase (T ε : outParam Type) (m : Type → Type) extends Monad m where
  /-- One statement. -/
  perform {α : Type} (statement : T → Except ε (α × T)) : m α
  raise {α : Type} (e : ε) : m α

export MonadDatabase (perform raise)

/-- A statement that only reads. -/
def query {T ε : Type} {m : Type → Type} [MonadDatabase T ε m] {α : Type} (q : T → α) : m α :=
  perform fun t => .ok (q t, t)

namespace Sql

variable {T ε α β : Type}

def bind (p : Sql T ε α) (f : α → Sql T ε β) : Sql T ε β := fun s =>
  match p s with
  | (.ok a, s') => f a s'
  | (.error e, s') => (.error e, s')

/-- One statement, with the outcome that comes next. -/
def statement (answer : Connection T → Except (Failure ε) α × Connection T) : Sql T ε α := fun s =>
  match s.script with
  | [] => (.error .pending, s)
  | .busy aborted :: rest => (.error .busy, ⟨s.connection.abort aborted, rest⟩)
  | .failed aborted :: rest => (.error .failed, ⟨s.connection.abort aborted, rest⟩)
  | .done :: rest => ((answer s.connection).1, ⟨(answer s.connection).2, rest⟩)

instance : MonadDatabase T ε (Sql T ε) where
  pure a := fun s => (.ok a, s)
  bind := bind
  perform q := statement fun c =>
    match q c.view with
    | .ok (a, t) => (.ok a, c.write t)
    | .error e => (.error (.thrown e), c)
  raise e := fun s => (.error (.thrown e), s)

/-- `begin;` -/
def begin : Sql T ε Unit := statement fun c =>
  match c.working with
  | some _ => (.error .failed, c)
  | none => (.ok (), { c with working := some c.tables })

/-- `commit;` -/
def commit : Sql T ε Unit := statement fun c =>
  match c.working with
  | some t => (.ok (), ⟨t, none⟩)
  | none => (.error .failed, c)

/-- `rollback;` -/
def rollback : Sql T ε Unit := statement fun c =>
  match c.working with
  | some _ => (.ok (), { c with working := none })
  | none => (.error .failed, c)

/-- Rethrow an exception after a rollback whose own exceptions are ignored. -/
def rollingBack (e : Failure ε) : Sql T ε α := fun s =>
  match (rollback : Sql T ε Unit) s with
  | (.error .pending, s') => (.error .pending, s')
  | (_, s') => (.error e, s')

/-- Code between `begin` and `commit`. -/
def transaction (body : Sql T ε α) : Sql T ε α := bind begin fun _ s =>
  match bind body (fun a => bind commit fun _ => pure a) s with
  | (.ok a, s') => (.ok a, s')
  | (.error e, s') => rollingBack e s'

/-- Whether an interrupt is pending. -/
def checkInterrupt : Sql T ε Unit := fun s =>
  match s.script with
  | [] => (.error .pending, s)
  | .done :: rest => (.ok (), ⟨s.connection, rest⟩)
  | _ :: rest => (.error .interrupted, ⟨s.connection, rest⟩)

/-- Every attempt takes an outcome, so that there are no more attempts than outcomes. -/
def retryLoop (fn : Sql T ε α) : (attempts : Nat) → Sql T ε α
  | 0 => fun s => (.error .pending, s)
  | attempts + 1 => fun s =>
      match fn s with
      | (.error .busy, s') => bind checkInterrupt (fun _ => retryLoop fn attempts) s'
      | r => r

/-- Run the code again as long as the database is busy. -/
def retry (fn : Sql T ε α) : Sql T ε α := fun s => retryLoop fn (s.script.length + 1) s

@[simp] theorem pure_run (a : α) (s : Session T) : (pure a : Sql T ε α) s = (.ok a, s) := rfl

@[simp] theorem raise_run (e : ε) (s : Session T) :
    (raise e : Sql T ε α) s = (.error (.thrown e), s) := rfl

@[simp] theorem bind_def (p : Sql T ε α) (f : α → Sql T ε β) : p >>= f = bind p f := rfl

theorem bind_ok {p : Sql T ε α} {f : α → Sql T ε β} {s s' : Session T} {a : α}
    (h : p s = (.ok a, s')) : bind p f s = f a s' := by
  rw [bind, h]

theorem bind_error {p : Sql T ε α} {f : α → Sql T ε β} {s s' : Session T} {e : Failure ε}
    (h : p s = (.error e, s')) : bind p f s = (.error e, s') := by
  rw [bind, h]

theorem retryLoop_busy {p : Sql T ε α} {attempts : Nat} {s s' : Session T}
    (h : p s = (.error .busy, s')) : retryLoop p (attempts + 1) s =
      bind checkInterrupt (fun _ => retryLoop p attempts) s' := by
  show (match p s with
    | (.error .busy, s') => bind checkInterrupt (fun _ => retryLoop p attempts) s'
    | r => r) = _
  rw [h]

theorem retryLoop_of_ne {p : Sql T ε α} {attempts : Nat} {s : Session T}
    (h : (p s).1 ≠ .error .busy) : retryLoop p (attempts + 1) s = p s := by
  show (match p s with
    | (.error .busy, s') => bind checkInterrupt (fun _ => retryLoop p attempts) s'
    | r => r) = _
  split
  · rename_i s' hp
    rw [hp] at h
    exact absurd rfl h
  · rfl

/-- After an attempt that found the database busy. -/
theorem checkInterrupt_cases {fn : Sql T ε α} (s : Session T) :
    (∃ e, bind checkInterrupt (fun _ => fn) s = (.error e, ⟨s.connection, s.script.tail⟩) ∧
      ∀ e', e ≠ .thrown e') ∨
    bind checkInterrupt (fun _ => fn) s = fn ⟨s.connection, s.script.tail⟩ := by
  obtain ⟨c, script⟩ := s
  rcases script with - | ⟨_ | _ | _, rest⟩
  · exact Or.inl ⟨.pending, rfl, by simp⟩
  · exact Or.inr rfl
  · exact Or.inl ⟨.interrupted, rfl, by simp⟩
  · exact Or.inl ⟨.interrupted, rfl, by simp⟩

/-- What comes of one attempt. -/
theorem retryLoop_cases (p : Sql T ε α) (attempts : Nat) (s : Session T) :
    ((p s).1 ≠ .error .busy ∧ retryLoop p (attempts + 1) s = p s) ∨
    ∃ s', p s = (.error .busy, s') ∧
      ((∃ e, retryLoop p (attempts + 1) s = (.error e, ⟨s'.connection, s'.script.tail⟩) ∧
        ∀ e', e ≠ .thrown e') ∨
      retryLoop p (attempts + 1) s = retryLoop p attempts ⟨s'.connection, s'.script.tail⟩) := by
  by_cases hbusy : (p s).1 = .error .busy
  · rcases hp : p s with ⟨r, s'⟩
    rw [hp] at hbusy
    cases hbusy
    rw [retryLoop_busy hp]
    exact Or.inr ⟨s', rfl, checkInterrupt_cases s'⟩
  · exact Or.inl ⟨hbusy, retryLoop_of_ne hbusy⟩

end Sql

/-- Without failing statements: the tables are the state. -/
instance {T ε : Type} : MonadDatabase T ε (StateT T (Except ε)) where
  perform q := q
  raise e := fun _ => .error e

section Readings

variable {T ε α β : Type} {spec : StateT T (Except ε) α} {g : α → StateT T (Except ε) β} {t t' : T}

@[simp] theorem reading_pure (a : α) (t : T) : (pure a : StateT T (Except ε) α) t = .ok (a, t) := rfl

@[simp] theorem reading_raise (e : ε) (t : T) :
    (raise e : StateT T (Except ε) α) t = .error e := rfl

@[simp] theorem reading_perform (q : T → Except ε (α × T)) (t : T) :
    (perform q : StateT T (Except ε) α) t = q t := rfl

@[simp] theorem reading_query (q : T → α) (t : T) :
    (query q : StateT T (Except ε) α) t = .ok (q t, t) := rfl

theorem reading_bind_ok {a : α} (h : spec t = .ok (a, t')) : (spec >>= g) t = g a t' := by
  show (spec t >>= fun r => g r.1 r.2) = _
  rw [h]
  rfl

theorem reading_bind_error {e : ε} (h : spec t = .error e) : (spec >>= g) t = .error e := by
  show (spec t >>= fun r => g r.1 r.2) = _
  rw [h]
  rfl

/-- The steps of a reading that has a result. -/
theorem reading_bind_eq_ok {r : β × T} (h : (spec >>= g) t = .ok r) :
    ∃ a t', spec t = .ok (a, t') ∧ g a t' = .ok r := by
  rcases hres : spec t with e | ⟨a, t'⟩
  · rw [reading_bind_error hres] at h
    cases h
  · rw [reading_bind_ok hres] at h
    exact ⟨a, t', rfl, h⟩

end Readings

/-! ## Inside a transaction -/

section Rules

variable {T ε α β : Type}

/-- No statement of the script fails. -/
def Smooth (script : List Outcome) : Prop := ∀ o ∈ script, o = Outcome.done

/-- A statement is answered, or it fails and nothing is committed. -/
theorem statement_cases (answer : Connection T → Except (Failure ε) α × Connection T)
    (s : Session T) :
    (∃ rest, s.script = .done :: rest ∧
      Sql.statement answer s = ((answer s.connection).1, ⟨(answer s.connection).2, rest⟩)) ∨
    (∃ e s', Sql.statement answer s = (.error e, s') ∧
      s'.connection.tables = s.connection.tables ∧ (∀ e', e ≠ .thrown e') ∧
      (Smooth s.script → e = .pending ∧ Smooth s'.script)) := by
  unfold Sql.statement
  split
  · exact Or.inr ⟨_, _, rfl, rfl, by simp, fun h => ⟨rfl, h⟩⟩
  · rename_i aborted rest hscript
    refine Or.inr ⟨_, _, rfl, s.connection.abort_tables _, by simp, fun hsmooth => ?_⟩
    have hdone := hsmooth (.busy aborted) (by rw [hscript]; simp)
    cases hdone
  · rename_i aborted rest hscript
    refine Or.inr ⟨_, _, rfl, s.connection.abort_tables _, by simp, fun hsmooth => ?_⟩
    have hdone := hsmooth (.failed aborted) (by rw [hscript]; simp)
    cases hdone
  · rename_i rest hscript
    exact Or.inl ⟨rest, hscript, rfl⟩

theorem Smooth.tail {o : Outcome} {rest script : List Outcome} (h : Smooth script)
    (hscript : script = o :: rest) : Smooth rest :=
  fun o' ho => h o' (by rw [hscript]; exact List.mem_cons_of_mem _ ho)

/-- Code that, inside a transaction, computes `spec` until a statement fails. -/
structure Within (p : Sql T ε α) (spec : StateT T (Except ε) α) : Prop where
  tables : ∀ s w, s.connection.working = some w →
    (p s).2.connection.tables = s.connection.tables
  ok : ∀ s w a, s.connection.working = some w → (p s).1 = .ok a →
    ∃ w', spec w = .ok (a, w') ∧ (p s).2.connection.working = some w'
  thrown : ∀ s w e, s.connection.working = some w → (p s).1 = .error (.thrown e) → spec w = .error e
  /-- With no failing statement it ends in no other way than `spec`, or has not ended. -/
  smooth : ∀ s w, s.connection.working = some w → Smooth s.script →
    Smooth (p s).2.script ∧
      ((p s).1 = .error .pending ∨ (∃ a, (p s).1 = .ok a) ∨ ∃ e, (p s).1 = .error (.thrown e))

theorem Within.pure (a : α) : Within (pure a : Sql T ε α) (pure a) where
  tables _ _ _ := rfl
  ok s w b hw h := by
    cases h
    exact ⟨w, rfl, hw⟩
  thrown _ _ _ _ h := by cases h
  smooth _ _ _ hs := ⟨hs, Or.inr (Or.inl ⟨a, rfl⟩)⟩

theorem Within.raise (e : ε) : Within (raise e : Sql T ε α) (raise e) where
  tables _ _ _ := rfl
  ok _ _ _ _ h := by cases h
  thrown _ _ _ _ h := by
    cases h
    rfl
  smooth _ _ _ hs := ⟨hs, Or.inr (Or.inr ⟨e, rfl⟩)⟩

/-- What a statement does inside a transaction. -/
theorem perform_cases (q : T → Except ε (α × T)) {s : Session T} {w : T}
    (hw : s.connection.working = some w) :
    (∃ rest a w', s.script = .done :: rest ∧ q w = .ok (a, w') ∧
      (perform q : Sql T ε α) s = (.ok a, ⟨{ s.connection with working := some w' }, rest⟩)) ∨
    (∃ rest e, s.script = .done :: rest ∧ q w = .error e ∧
      (perform q : Sql T ε α) s = (.error (.thrown e), ⟨s.connection, rest⟩)) ∨
    (∃ e s', (perform q : Sql T ε α) s = (.error e, s') ∧
      s'.connection.tables = s.connection.tables ∧ (∀ e', e ≠ .thrown e') ∧
      (Smooth s.script → e = .pending ∧ Smooth s'.script)) := by
  have hview : s.connection.view = w := by
    rw [Connection.view, hw]
    rfl
  rcases statement_cases (fun c : Connection T =>
      match q c.view with
      | .ok (a, t) => ((.ok a : Except (Failure ε) α), c.write t)
      | .error e => (.error (.thrown e), c)) s with ⟨rest, hscript, hrun⟩ | hfail
  · rw [hview] at hrun
    rcases hq : q w with e | ⟨a, w'⟩
    · rw [hq] at hrun
      exact Or.inr (Or.inl ⟨rest, e, hscript, rfl, hrun⟩)
    · rw [hq] at hrun
      refine Or.inl ⟨rest, a, w', hscript, rfl, hrun.trans ?_⟩
      simp [Connection.write, hw]
  · exact Or.inr (Or.inr hfail)

theorem Within.perform (q : T → Except ε (α × T)) : Within (perform q : Sql T ε α) (perform q) := by
  constructor
  · intro s w hw
    rcases perform_cases q hw with ⟨_, _, _, -, -, hrun⟩ | ⟨_, _, -, -, hrun⟩ | ⟨_, _, hrun, h, -⟩
    · rw [hrun]
    · rw [hrun]
    · rw [hrun]
      exact h
  · intro s w a hw h
    rcases perform_cases q hw with ⟨_, b, w', -, hq, hrun⟩ | ⟨_, _, -, -, hrun⟩ | ⟨_, _, hrun, -⟩
    · rw [hrun] at h ⊢
      cases h
      exact ⟨w', hq, rfl⟩
    · rw [hrun] at h
      cases h
    · rw [hrun] at h
      cases h
  · intro s w e hw h
    rcases perform_cases q hw with ⟨_, _, _, -, -, hrun⟩ | ⟨_, e', -, hq, hrun⟩ |
      ⟨_, _, hrun, -, hne, -⟩
    · rw [hrun] at h
      cases h
    · rw [hrun] at h
      cases h
      exact hq
    · rw [hrun] at h
      exact absurd (Except.error.inj h) (hne e)
  · intro s w hw hsmooth
    rcases perform_cases q hw with ⟨_, a, _, hscript, -, hrun⟩ | ⟨_, e, hscript, -, hrun⟩ |
      ⟨_, _, hrun, -, -, hpending⟩
    · rw [hrun]
      exact ⟨hsmooth.tail hscript, Or.inr (Or.inl ⟨a, rfl⟩)⟩
    · rw [hrun]
      exact ⟨hsmooth.tail hscript, Or.inr (Or.inr ⟨e, rfl⟩)⟩
    · obtain ⟨rfl, hrest⟩ := hpending hsmooth
      rw [hrun]
      exact ⟨hrest, Or.inl rfl⟩

theorem Within.bind {p : Sql T ε α} {f : α → Sql T ε β} {spec : StateT T (Except ε) α}
    {g : α → StateT T (Except ε) β} (hp : Within p spec) (hf : ∀ a, Within (f a) (g a)) :
    Within (p >>= f) (spec >>= g) := by
  have hok : ∀ {s : Session T} {a : α}, (p s).1 = .ok a → (p >>= f) s = f a (p s).2 := by
    intro s a h
    rcases hps : p s with ⟨r, s'⟩
    rw [hps] at h
    cases h
    exact Sql.bind_ok hps
  have herr : ∀ {s : Session T} {e : Failure ε}, (p s).1 = .error e →
      (p >>= f) s = (.error e, (p s).2) := by
    intro s e h
    rcases hps : p s with ⟨r, s'⟩
    rw [hps] at h
    cases h
    exact Sql.bind_error hps
  constructor
  · intro s w hw
    rcases hres : (p s).1 with e | a
    · rw [herr hres]
      exact hp.tables s w hw
    · obtain ⟨w', -, hw'⟩ := hp.ok s w a hw hres
      rw [hok hres, (hf a).tables _ w' hw']
      exact hp.tables s w hw
  · intro s w b hw h
    rcases hres : (p s).1 with e | a
    · rw [herr hres] at h
      cases h
    · obtain ⟨w', hsw, hw'⟩ := hp.ok s w a hw hres
      rw [hok hres] at h ⊢
      rw [reading_bind_ok hsw]
      exact (hf a).ok _ w' b hw' h
  · intro s w e hw h
    rcases hres : (p s).1 with e' | a
    · rw [herr hres] at h
      cases h
      exact reading_bind_error (hp.thrown s w e hw hres)
    · obtain ⟨w', hsw, hw'⟩ := hp.ok s w a hw hres
      rw [hok hres] at h
      rw [reading_bind_ok hsw]
      exact (hf a).thrown _ w' e hw' h
  · intro s w hw hsmooth
    obtain ⟨hrest, hres⟩ := hp.smooth s w hw hsmooth
    rcases hres with hres | ⟨a, hres⟩ | ⟨e, hres⟩
    · rw [herr hres]
      exact ⟨hrest, Or.inl rfl⟩
    · obtain ⟨w', -, hw'⟩ := hp.ok s w a hw hres
      rw [hok hres]
      exact (hf a).smooth _ w' hw' hrest
    · rw [herr hres]
      exact ⟨hrest, Or.inr (Or.inr ⟨e, rfl⟩)⟩

/-! ## Whole transactions -/

/-- Code that computes `spec` on the committed tables, once, or leaves them as they were. -/
structure Atomically (p : Sql T ε α) (spec : StateT T (Except ε) α) : Prop where
  ok : ∀ s a, (p s).1 = .ok a → spec s.connection.tables = .ok (a, (p s).2.connection.tables)
  error : ∀ s e, (p s).1 = .error e → (p s).2.connection.tables = s.connection.tables
  thrown : ∀ s e, (p s).1 = .error (.thrown e) → spec s.connection.tables = .error e
  closed : ∀ s a, (p s).1 = .ok a → (p s).2.connection.working = none
  /-- With no failing statement, and no transaction left open, it ends as `spec` does. -/
  smooth : ∀ s, s.connection.working = none → Smooth s.script →
    (p s).1 = .error .pending ∨ (∃ a, (p s).1 = .ok a) ∨ ∃ e, (p s).1 = .error (.thrown e)

/-- How `begin` ends. -/
theorem begin_cases (s : Session T) :
    (∃ rest, s.script = .done :: rest ∧ s.connection.working = none ∧
      (Sql.begin : Sql T ε Unit) s = (.ok (), ⟨⟨s.connection.tables, some s.connection.tables⟩, rest⟩)) ∨
    (∃ e s', (Sql.begin : Sql T ε Unit) s = (.error e, s') ∧
      s'.connection.tables = s.connection.tables ∧ (∀ e', e ≠ .thrown e') ∧
      (s.connection.working = none → Smooth s.script → e = .pending)) := by
  rcases statement_cases (fun c : Connection T =>
      match c.working with
      | some _ => ((.error .failed : Except (Failure ε) Unit), c)
      | none => (.ok (), { c with working := some c.tables })) s with
    ⟨rest, hscript, hrun⟩ | ⟨e, s', hrun, htables, hne, hsmooth⟩
  · rcases hw : s.connection.working with - | w
    · rw [hw] at hrun
      exact Or.inl ⟨rest, hscript, rfl, hrun⟩
    · rw [hw] at hrun
      exact Or.inr ⟨_, _, hrun, rfl, by simp, by simp⟩
  · exact Or.inr ⟨e, s', hrun, htables, hne, fun _ h => (hsmooth h).1⟩

/-- How `commit` ends inside a transaction. -/
theorem commit_cases {s : Session T} {w : T} (hw : s.connection.working = some w) :
    (∃ rest, (Sql.commit : Sql T ε Unit) s = (.ok (), ⟨⟨w, none⟩, rest⟩)) ∨
    (∃ e s', (Sql.commit : Sql T ε Unit) s = (.error e, s') ∧
      s'.connection.tables = s.connection.tables ∧ (∀ e', e ≠ .thrown e') ∧
      (Smooth s.script → e = .pending)) := by
  rcases statement_cases (fun c : Connection T =>
      match c.working with
      | some t => ((.ok () : Except (Failure ε) Unit), ⟨t, none⟩)
      | none => (.error .failed, c)) s with
    ⟨rest, -, hrun⟩ | ⟨e, s', hrun, htables, hne, hsmooth⟩
  · rw [hw] at hrun
    exact Or.inl ⟨rest, hrun⟩
  · exact Or.inr ⟨e, s', hrun, htables, hne, fun h => (hsmooth h).1⟩

theorem rollback_tables (s : Session T) :
    ((Sql.rollback : Sql T ε Unit) s).2.connection.tables = s.connection.tables := by
  rcases statement_cases (fun c : Connection T =>
      match c.working with
      | some _ => ((.ok () : Except (Failure ε) Unit), { c with working := none })
      | none => (.error .failed, c)) s with ⟨rest, -, hrun⟩ | ⟨e, s', hrun, htables, -⟩
  · rw [Sql.rollback, hrun]
    dsimp only
    split <;> rfl
  · rw [Sql.rollback, hrun]
    exact htables

theorem rollingBack_cases (e : Failure ε) (s : Session T) :
    ∃ e' s', (Sql.rollingBack e : Sql T ε α) s = (.error e', s') ∧
      s'.connection.tables = s.connection.tables ∧ (e' = e ∨ e' = .pending) := by
  have htables := rollback_tables (ε := ε) s
  unfold Sql.rollingBack
  split
  · rename_i s' hrun
    rw [hrun] at htables
    exact ⟨_, _, rfl, htables, Or.inr rfl⟩
  · rename_i r s' _ hrun
    rw [hrun] at htables
    exact ⟨_, _, rfl, htables, Or.inl rfl⟩

/-- A transaction whose body computes `spec` commits it, or leaves the tables alone. -/
theorem Within.transaction_cases {body : Sql T ε α} {spec : StateT T (Except ε) α}
    (h : Within body spec) (s : Session T) :
    (∃ a w rest, Sql.transaction body s = (.ok a, ⟨⟨w, none⟩, rest⟩) ∧
      spec s.connection.tables = .ok (a, w)) ∨
    (∃ e s', Sql.transaction body s = (.error e, s') ∧
      s'.connection.tables = s.connection.tables ∧
      (∀ e', e = .thrown e' → spec s.connection.tables = .error e') ∧
      (s.connection.working = none → Smooth s.script → e = .pending ∨ ∃ e', e = .thrown e')) := by
  rcases begin_cases (ε := ε) s with ⟨rest, hscript, hw, hbegin⟩ | ⟨e, s', hbegin, htables, hne, hsmooth⟩
  · let s₁ : Session T := ⟨⟨s.connection.tables, some s.connection.tables⟩, rest⟩
    have hw₁ : s₁.connection.working = some s.connection.tables := rfl
    have htables₁ := h.tables s₁ _ hw₁
    have hrun : Sql.transaction body s =
        match Sql.bind body (fun a => Sql.bind Sql.commit fun _ => Pure.pure a) s₁ with
        | (.ok a, s') => (.ok a, s')
        | (.error e, s') => Sql.rollingBack e s' := by
      rw [Sql.transaction, Sql.bind_ok hbegin]
    rcases hbody : body s₁ with ⟨e | a, s₂⟩
    · -- the body throws
      have herr : (body s₁).1 = .error e := by rw [hbody]
      rw [hbody] at htables₁
      obtain ⟨e', s', hback, htables', he'⟩ := rollingBack_cases (α := α) e s₂
      rw [hrun, Sql.bind_error hbody]
      refine Or.inr ⟨e', s', hback, htables'.trans htables₁, ?_, fun _ hsmooth => ?_⟩
      · rintro e'' rfl
        rcases he' with rfl | he'
        · exact h.thrown s₁ _ e'' hw₁ herr
        · cases he'
      · rcases he' with rfl | rfl
        · rcases (h.smooth s₁ _ hw₁ (hsmooth.tail hscript)).2 with hend | ⟨a, hend⟩ | ⟨e'', hend⟩
          · rw [herr] at hend
            exact Or.inl (Except.error.inj hend)
          · rw [herr] at hend
            cases hend
          · rw [herr] at hend
            exact Or.inr ⟨e'', Except.error.inj hend⟩
        · exact Or.inl rfl
    · have hok : (body s₁).1 = .ok a := by rw [hbody]
      obtain ⟨w, hspec, hw₂⟩ := h.ok s₁ _ a hw₁ hok
      rw [hbody] at htables₁ hw₂
      rcases commit_cases (ε := ε) hw₂ with ⟨rest', hcommit⟩ | ⟨e, s₃, hcommit, htables₃, hne, hpend⟩
      · refine Or.inl ⟨a, w, rest', ?_, hspec⟩
        rw [hrun, Sql.bind_ok hbody, Sql.bind_ok hcommit]
        rfl
      · -- the commit fails
        obtain ⟨e', s', hback, htables', he'⟩ := rollingBack_cases (α := α) e s₃
        refine Or.inr ⟨e', s', ?_, htables'.trans (htables₃.trans htables₁), ?_, fun _ hsmooth => ?_⟩
        · rw [hrun, Sql.bind_ok hbody, Sql.bind_error hcommit]
          exact hback
        · rintro e'' rfl
          rcases he' with he' | he'
          · exact absurd he'.symm (hne e'')
          · cases he'
        · have hsmooth₂ := (h.smooth s₁ _ hw₁ (hsmooth.tail hscript)).1
          rw [hbody] at hsmooth₂
          rcases he' with rfl | rfl
          · exact Or.inl (hpend hsmooth₂)
          · exact Or.inl rfl
  · refine Or.inr ⟨e, s', ?_, htables, fun e' he => absurd he (hne e'), fun hw hs => ?_⟩
    · exact Sql.bind_error hbegin
    · exact Or.inl (hsmooth hw hs)

theorem Within.transaction {body : Sql T ε α} {spec : StateT T (Except ε) α}
    (h : Within body spec) : Atomically (Sql.transaction body) spec := by
  constructor
  · intro s a hres
    rcases h.transaction_cases s with ⟨b, w, rest, hrun, hspec⟩ | ⟨e, s', hrun, -⟩
    · rw [hrun] at hres ⊢
      cases hres
      exact hspec
    · rw [hrun] at hres
      cases hres
  · intro s e hres
    rcases h.transaction_cases s with ⟨b, w, rest, hrun, -⟩ | ⟨e', s', hrun, htables, -⟩
    · rw [hrun] at hres
      cases hres
    · rw [hrun]
      exact htables
  · intro s e hres
    rcases h.transaction_cases s with ⟨b, w, rest, hrun, -⟩ | ⟨e', s', hrun, -, hthrown, -⟩
    · rw [hrun] at hres
      cases hres
    · rw [hrun] at hres
      exact hthrown e (Except.error.inj hres)
  · intro s a hres
    rcases h.transaction_cases s with ⟨b, w, rest, hrun, -⟩ | ⟨e', s', hrun, -⟩
    · rw [hrun]
    · rw [hrun] at hres
      cases hres
  · intro s hw hsmooth
    rcases h.transaction_cases s with ⟨b, w, rest, hrun, -⟩ | ⟨e', s', hrun, -, -, hend⟩
    · rw [hrun]
      exact Or.inr (Or.inl ⟨b, rfl⟩)
    · rw [hrun]
      rcases hend hw hsmooth with rfl | ⟨e, rfl⟩
      · exact Or.inl rfl
      · exact Or.inr (Or.inr ⟨e, rfl⟩)

/-- Retrying keeps a transaction atomic: what was busy has changed nothing. -/
theorem Atomically.retryLoop {p : Sql T ε α} {spec : StateT T (Except ε) α} (h : Atomically p spec)
    (attempts : Nat) : Atomically (Sql.retryLoop p attempts) spec := by
  induction attempts with
  | zero =>
      refine ⟨fun s a hres => ?_, fun s e _ => rfl, fun s e hres => ?_, fun s a hres => ?_,
        fun s _ _ => Or.inl rfl⟩
      · cases hres
      · cases hres
      · cases hres
  | succ attempts ih =>
      -- an attempt that was busy leaves the tables to the next one
      have hbusy : ∀ {s s' : Session T}, p s = (.error .busy, s') →
          s'.connection.tables = s.connection.tables := by
        intro s s' hp
        have htables := h.error s .busy (by rw [hp])
        rwa [hp] at htables
      refine ⟨fun s a hres => ?_, fun s e hres => ?_, fun s e hres => ?_, fun s a hres => ?_,
        fun s hw hsmooth => ?_⟩
      · rcases Sql.retryLoop_cases p attempts s with ⟨-, hrun⟩ | ⟨s', hp, ⟨e, hrun, -⟩ | hrun⟩
        · rw [hrun] at hres ⊢
          exact h.ok s a hres
        · rw [hrun] at hres
          cases hres
        · rw [hrun] at hres ⊢
          rw [← hbusy hp]
          exact ih.ok _ a hres
      · rcases Sql.retryLoop_cases p attempts s with ⟨-, hrun⟩ | ⟨s', hp, ⟨e', hrun, -⟩ | hrun⟩
        · rw [hrun] at hres ⊢
          exact h.error s e hres
        · have htables := hbusy hp
          rw [hrun]
          exact htables
        · have htables := hbusy hp
          rw [hrun] at hres ⊢
          exact (ih.error _ e hres).trans htables
      · rcases Sql.retryLoop_cases p attempts s with ⟨-, hrun⟩ | ⟨s', hp, ⟨e', hrun, hne⟩ | hrun⟩
        · rw [hrun] at hres
          exact h.thrown s e hres
        · rw [hrun] at hres
          exact absurd (Except.error.inj hres) (hne e)
        · rw [hrun] at hres
          rw [← hbusy hp]
          exact ih.thrown ⟨s'.connection, s'.script.tail⟩ e hres
      · rcases Sql.retryLoop_cases p attempts s with ⟨-, hrun⟩ | ⟨s', hp, ⟨e, hrun, -⟩ | hrun⟩
        · rw [hrun] at hres ⊢
          exact h.closed s a hres
        · rw [hrun] at hres
          cases hres
        · rw [hrun] at hres ⊢
          exact ih.closed _ a hres
      · have hend := h.smooth s hw hsmooth
        rw [Sql.retryLoop_of_ne (Failure.ne_busy hend)]
        exact hend

theorem Atomically.retry {p : Sql T ε α} {spec : StateT T (Except ε) α} (h : Atomically p spec) :
    Atomically (Sql.retry p) spec where
  ok s := (h.retryLoop (s.script.length + 1)).ok s
  error s := (h.retryLoop (s.script.length + 1)).error s
  thrown s := (h.retryLoop (s.script.length + 1)).thrown s
  closed s := (h.retryLoop (s.script.length + 1)).closed s
  smooth s := (h.retryLoop (s.script.length + 1)).smooth s

/-! ## What statements keep, and how many there are -/

/-- What holds of the committed tables, and of those an open transaction sees. -/
def Connection.Holds (I : T → Prop) (c : Connection T) : Prop :=
  I c.tables ∧ ∀ w, c.working = some w → I w

/-- Code that keeps `I` at every statement, also when it stops between two of them. -/
def Keeps (I : T → Prop) (p : Sql T ε α) : Prop :=
  ∀ s, s.connection.Holds I → (p s).2.connection.Holds I

/-- Code that takes at most `n` outcomes, and has ended when they are there. -/
structure Takes (n : Nat) (p : Sql T ε α) : Prop where
  rest : ∀ s, s.script.length ≤ (p s).2.script.length + n
  ended : ∀ s, n ≤ s.script.length → (p s).1 ≠ .error .pending

theorem Keeps.bind {I : T → Prop} {p : Sql T ε α} {f : α → Sql T ε β} (hp : Keeps I p)
    (hf : ∀ a, Keeps I (f a)) : Keeps I (Sql.bind p f) := by
  intro s hs
  have hnext := hp s hs
  rcases hres : p s with ⟨e | a, s'⟩
  · rw [Sql.bind_error hres]
    rwa [hres] at hnext
  · rw [Sql.bind_ok hres]
    rw [hres] at hnext
    exact hf a s' hnext

theorem Takes.bind {n k : Nat} {p : Sql T ε α} {f : α → Sql T ε β} (hp : Takes n p)
    (hf : ∀ a, Takes k (f a)) : Takes (n + k) (Sql.bind p f) := by
  constructor
  · intro s
    have hrest := hp.rest s
    rcases hres : p s with ⟨e | a, s'⟩
    · rw [Sql.bind_error hres]
      rw [hres] at hrest
      dsimp only at hrest ⊢
      omega
    · rw [Sql.bind_ok hres]
      rw [hres] at hrest
      have hrest' := (hf a).rest s'
      dsimp only at hrest
      omega
  · intro s hlen
    have hrest := hp.rest s
    have hended := hp.ended s (by omega)
    rcases hres : p s with ⟨e | a, s'⟩
    · rw [Sql.bind_error hres]
      rw [hres] at hended
      simpa using hended
    · rw [Sql.bind_ok hres]
      rw [hres] at hrest
      dsimp only at hrest
      exact (hf a).ended s' (by omega)

theorem Takes.mono {n k : Nat} {p : Sql T ε α} (h : Takes n p) (hle : n ≤ k) : Takes k p :=
  ⟨fun s => (h.rest s).trans (by omega), fun s hlen => h.ended s (hle.trans hlen)⟩

theorem Connection.Holds.abort {I : T → Prop} {c : Connection T} (h : c.Holds I)
    (aborted : Bool) : (c.abort aborted).Holds I := by
  unfold Connection.abort
  split
  · exact ⟨h.1, by simp⟩
  · exact h

theorem Connection.Holds.write {I : T → Prop} {c : Connection T} (h : c.Holds I) {t : T}
    (ht : I t) : (c.write t).Holds I := by
  unfold Connection.write
  split
  · exact ⟨h.1, by simpa using ht⟩
  · rename_i hnone
    exact ⟨ht, by simp [hnone]⟩

theorem Connection.Holds.view {I : T → Prop} {c : Connection T} (h : c.Holds I) : I c.view := by
  unfold Connection.view
  rcases hw : c.working with - | w
  · exact h.1
  · exact h.2 w hw

/-- A statement keeps what its answer keeps. -/
theorem Keeps.statement {I : T → Prop}
    {answer : Connection T → Except (Failure ε) α × Connection T}
    (h : ∀ c, c.Holds I → (answer c).2.Holds I) : Keeps I (Sql.statement answer) := by
  intro s hs
  unfold Sql.statement
  split
  · exact hs
  · exact hs.abort _
  · exact hs.abort _
  · exact h _ hs

theorem Takes.statement {answer : Connection T → Except (Failure ε) α × Connection T}
    (h : ∀ c, (answer c).1 ≠ .error .pending) : Takes 1 (Sql.statement answer) := by
  constructor
  · intro s
    unfold Sql.statement
    split <;> simp_all
  · intro s hlen
    unfold Sql.statement
    split
    · rename_i hnil
      simp [hnil] at hlen
    · simp
    · simp
    · exact h _

theorem Keeps.begin {I : T → Prop} : Keeps I (Sql.begin : Sql T ε Unit) := by
  refine Keeps.statement fun c hc => ?_
  split
  · exact hc
  · exact ⟨hc.1, by simpa using hc.1⟩

theorem Keeps.commit {I : T → Prop} : Keeps I (Sql.commit : Sql T ε Unit) := by
  refine Keeps.statement fun c hc => ?_
  split
  · rename_i t ht
    exact ⟨hc.2 t ht, by simp⟩
  · exact hc

theorem Keeps.rollback {I : T → Prop} : Keeps I (Sql.rollback : Sql T ε Unit) := by
  refine Keeps.statement fun c hc => ?_
  split
  · exact ⟨hc.1, by simp⟩
  · exact hc

theorem Takes.begin : Takes 1 (Sql.begin : Sql T ε Unit) := by
  refine Takes.statement fun c => ?_
  split <;> simp

theorem Takes.commit : Takes 1 (Sql.commit : Sql T ε Unit) := by
  refine Takes.statement fun c => ?_
  split <;> simp

theorem Takes.rollback : Takes 1 (Sql.rollback : Sql T ε Unit) := by
  refine Takes.statement fun c => ?_
  split <;> simp

theorem Keeps.rollingBack {I : T → Prop} (e : Failure ε) :
    Keeps I (Sql.rollingBack e : Sql T ε α) := by
  intro s hs
  have hnext := (Keeps.rollback : Keeps I (Sql.rollback : Sql T ε Unit)) s hs
  unfold Sql.rollingBack
  split <;> simp_all

theorem Sql.rollingBack_rest (e : Failure ε) (s : Session T) :
    s.script.length ≤ ((Sql.rollingBack e : Sql T ε α) s).2.script.length + 1 := by
  have hrest := (Takes.rollback : Takes 1 (Sql.rollback : Sql T ε Unit)).rest s
  unfold Sql.rollingBack
  split <;> simp_all

theorem Sql.rollingBack_ended {e : Failure ε} (he : e ≠ .pending) {s : Session T}
    (hlen : 1 ≤ s.script.length) : ((Sql.rollingBack e : Sql T ε α) s).1 ≠ .error .pending := by
  have hended := (Takes.rollback : Takes 1 (Sql.rollback : Sql T ε Unit)).ended s hlen
  unfold Sql.rollingBack
  split <;> simp_all

theorem Keeps.transaction {I : T → Prop} {body : Sql T ε α} (h : Keeps I body) :
    Keeps I (Sql.transaction body) := by
  refine Keeps.begin.bind fun _ s hs => ?_
  have hbody : Keeps I (Sql.bind body fun a => Sql.bind Sql.commit fun _ => Pure.pure a) :=
    h.bind fun a => Keeps.commit.bind fun _ _ hs => hs
  have hnext := hbody s hs
  rcases hres : Sql.bind body (fun a => Sql.bind Sql.commit fun _ => Pure.pure a) s with ⟨e | a, s'⟩
  · rw [hres] at hnext
    exact Keeps.rollingBack e s' hnext
  · rwa [hres] at hnext

theorem Takes.transaction {n : Nat} {body : Sql T ε α} (h : Takes n body) :
    Takes (n + 3) (Sql.transaction body) := by
  have hbody : Takes (n + 1) (Sql.bind body fun a => Sql.bind Sql.commit fun _ => Pure.pure a) :=
    h.bind fun a => Takes.commit.bind (k := 0) fun _ => ⟨fun s => le_refl _, fun s _ => by simp⟩
  refine (Takes.begin.bind (k := n + 2) fun _ => ⟨fun s => ?_, fun s hlen => ?_⟩).mono (by omega)
  · have hrest := hbody.rest s
    rcases hres : Sql.bind body (fun a => Sql.bind Sql.commit fun _ => Pure.pure a) s with
      ⟨e | a, s'⟩
    · have hback := Sql.rollingBack_rest (α := α) e s'
      rw [hres] at hrest
      dsimp only at hrest ⊢
      omega
    · rw [hres] at hrest
      dsimp only at hrest ⊢
      omega
  · have hrest := hbody.rest s
    have hended := hbody.ended s (by omega)
    rcases hres : Sql.bind body (fun a => Sql.bind Sql.commit fun _ => Pure.pure a) s with
      ⟨e | a, s'⟩
    · rw [hres] at hrest hended
      dsimp only at hrest
      exact Sql.rollingBack_ended (fun he => hended (congrArg _ he)) (by omega)
    · simp

theorem Keeps.retryLoop {I : T → Prop} {p : Sql T ε α} (h : Keeps I p) (attempts : Nat) :
    Keeps I (Sql.retryLoop p attempts) := by
  induction attempts with
  | zero => exact fun s hs => hs
  | succ attempts ih =>
      intro s hs
      have hnext := h s hs
      rcases Sql.retryLoop_cases p attempts s with ⟨-, hrun⟩ | ⟨s', hp, ⟨e, hrun, -⟩ | hrun⟩
      · rwa [hrun]
      · rw [hp] at hnext
        rwa [hrun]
      · rw [hp] at hnext
        rw [hrun]
        exact ih _ hnext

theorem Keeps.retry {I : T → Prop} {p : Sql T ε α} (h : Keeps I p) : Keeps I (Sql.retry p) :=
  fun s => h.retryLoop (s.script.length + 1) s

/-- A transaction whose statements all succeed ends as its body does. -/
theorem Within.transaction_ended {n : Nat} {body : Sql T ε α} {spec : StateT T (Except ε) α}
    (h : Within body spec) (ht : Takes n body) {s : Session T}
    (hw : s.connection.working = none) (hsmooth : Smooth s.script) (hlen : n + 3 ≤ s.script.length) :
    (∃ a, (Sql.retry (Sql.transaction body) s).1 = .ok a) ∨
      ∃ e, (Sql.retry (Sql.transaction body) s).1 = .error (.thrown e) := by
  have hend := h.transaction.smooth s hw hsmooth
  rw [Sql.retry, Sql.retryLoop_of_ne (Failure.ne_busy hend)]
  exact hend.resolve_left (ht.transaction.ended s hlen)

/-! ## Code and its reading -/

/-- Statements that keep `I`. -/
def Preserves (I : T → Prop) (spec : StateT T (Except ε) α) : Prop :=
  ∀ t a t', I t → spec t = .ok (a, t') → I t'

/-- Code of at most `n` statements with its reading, where every statement keeps `I`. -/
structure Follows (I : T → Prop) (n : Nat) (p : Sql T ε α) (spec : StateT T (Except ε) α) :
    Prop where
  within : Within p spec
  keeps : Keeps I p
  takes : Takes n p
  preserves : Preserves I spec

namespace Follows

variable {I : T → Prop} {n k : Nat}

theorem pure (a : α) : Follows I 0 (Pure.pure a : Sql T ε α) (Pure.pure a) where
  within := .pure a
  keeps _ hs := hs
  takes := ⟨fun _ => le_refl _, fun _ _ => by simp⟩
  preserves t b t' ht h := by
    cases h
    exact ht

theorem raise (e : ε) : Follows I 0 (MonadDatabase.raise e : Sql T ε α) (MonadDatabase.raise e) where
  within := .raise e
  keeps _ hs := hs
  takes := ⟨fun _ => le_refl _, fun _ _ => by simp⟩
  preserves t b t' ht h := by cases h

theorem perform {q : T → Except ε (α × T)} (hq : ∀ t a t', I t → q t = .ok (a, t') → I t') :
    Follows I 1 (MonadDatabase.perform q : Sql T ε α) (MonadDatabase.perform q) where
  within := .perform q
  keeps := Keeps.statement fun c hc => by
    rcases hres : q c.view with e | ⟨a, t⟩
    · exact hc
    · exact hc.write (hq _ _ _ hc.view hres)
  takes := Takes.statement fun c => by
    rcases q c.view with e | ⟨a, t⟩ <;> simp
  preserves := hq

theorem query (q : T → α) : Follows I 1 (Foundation.query q : Sql T ε α) (Foundation.query q) :=
  perform fun t a t' ht h => by
    cases h
    exact ht

theorem bind {p : Sql T ε α} {f : α → Sql T ε β} {spec : StateT T (Except ε) α}
    {g : α → StateT T (Except ε) β} (hp : Follows I n p spec)
    (hf : ∀ a, Follows I k (f a) (g a)) : Follows I (n + k) (p >>= f) (spec >>= g) where
  within := hp.within.bind fun a => (hf a).within
  keeps := hp.keeps.bind fun a => (hf a).keeps
  takes := hp.takes.bind fun a => (hf a).takes
  preserves t b t' ht h := by
    obtain ⟨a, t₁, hres, hrest⟩ := reading_bind_eq_ok h
    exact (hf a).preserves _ _ _ (hp.preserves _ _ _ ht hres) hrest

theorem mono {p : Sql T ε α} {spec : StateT T (Except ε) α} (h : Follows I n p spec)
    (hle : n ≤ k) : Follows I k p spec :=
  { h with takes := h.takes.mono hle }

theorem forM {l : List β} {f : β → Sql T ε PUnit} {g : β → StateT T (Except ε) PUnit}
    (h : ∀ b ∈ l, Follows I n (f b) (g b)) : Follows I (l.length * n) (l.forM f) (l.forM g) := by
  induction l with
  | nil => exact (Follows.pure _).mono (Nat.zero_le _)
  | cons b rest ih =>
      simp only [List.forM_eq_forM, List.forM_cons] at ih ⊢
      refine ((h b (by simp)).bind fun _ => ih fun b hb => h b (List.mem_cons_of_mem _ hb)).mono ?_
      rw [List.length_cons, Nat.succ_mul, Nat.add_comm]

end Follows

/-! ## Code that only reads -/

/-- Code of at most `n` queries that, outside a transaction, computes `spec`. -/
structure Queries (n : Nat) (p : Sql T ε α) (spec : StateT T (Except ε) α) : Prop where
  connection : ∀ s, s.connection.working = none → (p s).2.connection = s.connection
  ok : ∀ s a, s.connection.working = none → (p s).1 = .ok a →
    spec s.connection.tables = .ok (a, s.connection.tables)
  thrown : ∀ s e, s.connection.working = none → (p s).1 = .error (.thrown e) →
    spec s.connection.tables = .error e
  smooth : ∀ s, s.connection.working = none → Smooth s.script → Smooth (p s).2.script ∧
    ((p s).1 = .error .pending ∨ (∃ a, (p s).1 = .ok a) ∨ ∃ e, (p s).1 = .error (.thrown e))
  takes : Takes n p

namespace Queries

variable {n k : Nat}

theorem pure (a : α) : Queries 0 (Pure.pure a : Sql T ε α) (Pure.pure a) where
  connection _ _ := rfl
  ok s b _ h := by
    cases h
    rfl
  thrown _ _ _ h := by cases h
  smooth _ _ hs := ⟨hs, Or.inr (Or.inl ⟨a, rfl⟩)⟩
  takes := ⟨fun _ => le_refl _, fun _ _ => by simp⟩

theorem raise (e : ε) : Queries 0 (MonadDatabase.raise e : Sql T ε α) (MonadDatabase.raise e) where
  connection _ _ := rfl
  ok _ _ _ h := by cases h
  thrown _ _ _ h := by
    cases h
    rfl
  smooth _ _ hs := ⟨hs, Or.inr (Or.inr ⟨e, rfl⟩)⟩
  takes := ⟨fun _ => le_refl _, fun _ _ => by simp⟩

/-- How a query ends outside a transaction. -/
theorem query_cases (q : T → α) {s : Session T} (hw : s.connection.working = none) :
    (∃ rest, s.script = .done :: rest ∧ (Foundation.query q : Sql T ε α) s =
      (.ok (q s.connection.tables), ⟨s.connection, rest⟩)) ∨
    (∃ e rest, (Foundation.query q : Sql T ε α) s = (.error e, ⟨s.connection, rest⟩) ∧
      (∀ e', e ≠ .thrown e') ∧ (Smooth s.script → e = .pending ∧ Smooth rest)) := by
  obtain ⟨⟨t, w⟩, script⟩ := s
  obtain rfl : w = none := hw
  have habort : ∀ aborted, (⟨t, none⟩ : Connection T).abort aborted = ⟨t, none⟩ := by
    intro aborted
    unfold Connection.abort
    split <;> rfl
  rcases script with - | ⟨_ | aborted | aborted, rest⟩
  · exact Or.inr ⟨.pending, [], rfl, by simp, fun h => ⟨rfl, h⟩⟩
  · exact Or.inl ⟨rest, rfl, rfl⟩
  · refine Or.inr ⟨.busy, rest, ?_, by simp, fun h => ?_⟩
    · exact congrArg (fun c => (Except.error Failure.busy, Session.mk c rest)) (habort aborted)
    · cases h (.busy aborted) (by simp)
  · refine Or.inr ⟨.failed, rest, ?_, by simp, fun h => ?_⟩
    · exact congrArg (fun c => (Except.error Failure.failed, Session.mk c rest)) (habort aborted)
    · cases h (.failed aborted) (by simp)

theorem query (q : T → α) : Queries 1 (Foundation.query q : Sql T ε α) (Foundation.query q) where
  connection s hw := by
    rcases query_cases (ε := ε) q hw with ⟨rest, -, hrun⟩ | ⟨e, rest, hrun, -⟩ <;> rw [hrun]
  ok s a hw h := by
    rcases query_cases (ε := ε) q hw with ⟨rest, -, hrun⟩ | ⟨e, rest, hrun, -⟩
    · rw [hrun] at h
      cases h
      rfl
    · rw [hrun] at h
      cases h
  thrown s e hw h := by
    rcases query_cases (ε := ε) q hw with ⟨rest, -, hrun⟩ | ⟨e', rest, hrun, hne, -⟩
    · rw [hrun] at h
      cases h
    · rw [hrun] at h
      exact absurd (Except.error.inj h) (hne e)
  smooth s hw hsmooth := by
    rcases query_cases (ε := ε) q hw with ⟨rest, hscript, hrun⟩ | ⟨e, rest, hrun, -, hpending⟩
    · rw [hrun]
      exact ⟨hsmooth.tail hscript, Or.inr (Or.inl ⟨_, rfl⟩)⟩
    · obtain ⟨rfl, hrest⟩ := hpending hsmooth
      rw [hrun]
      exact ⟨hrest, Or.inl rfl⟩
  takes := (Follows.query (I := fun _ => True) q).takes

theorem bind {p : Sql T ε α} {f : α → Sql T ε β} {spec : StateT T (Except ε) α}
    {g : α → StateT T (Except ε) β} (hp : Queries n p spec) (hf : ∀ a, Queries k (f a) (g a)) :
    Queries (n + k) (p >>= f) (spec >>= g) := by
  refine ⟨fun s hw => ?_, fun s b hw h => ?_, fun s e hw h => ?_, fun s hw hsmooth => ?_,
    hp.takes.bind fun a => (hf a).takes⟩ <;>
  have hsame := hp.connection s hw <;>
  rw [Sql.bind_def] at *
  · rcases hres : p s with ⟨e | a, s'⟩ <;> rw [hres] at hsame <;> dsimp only at hsame
    · rwa [Sql.bind_error hres]
    · rw [Sql.bind_ok hres, ← hsame]
      exact (hf a).connection s' (by rw [hsame, hw])
  · rcases hres : p s with ⟨e | a, s'⟩ <;> rw [hres] at hsame <;> dsimp only at hsame
    · rw [Sql.bind_error hres] at h
      cases h
    · rw [Sql.bind_ok hres] at h
      have hspec := hp.ok s a hw (by rw [hres])
      rw [reading_bind_ok hspec, ← hsame]
      exact (hf a).ok s' b (by rw [hsame, hw]) h
  · rcases hres : p s with ⟨e' | a, s'⟩ <;> rw [hres] at hsame <;> dsimp only at hsame
    · rw [Sql.bind_error hres] at h
      cases h
      exact reading_bind_error (hp.thrown s e hw (by rw [hres]))
    · rw [Sql.bind_ok hres] at h
      have hspec := hp.ok s a hw (by rw [hres])
      rw [reading_bind_ok hspec, ← hsame]
      exact (hf a).thrown s' e (by rw [hsame, hw]) h
  · obtain ⟨hrest, hend⟩ := hp.smooth s hw hsmooth
    rcases hres : p s with ⟨e | a, s'⟩ <;> rw [hres] at hsame hrest hend <;> dsimp only at hsame
    · rw [Sql.bind_error hres]
      exact ⟨hrest, by simpa using hend⟩
    · rw [Sql.bind_ok hres]
      exact (hf a).smooth s' (by rw [hsame, hw]) hrest

theorem mono {p : Sql T ε α} {spec : StateT T (Except ε) α} (h : Queries n p spec) (hle : n ≤ k) :
    Queries k p spec :=
  { h with takes := h.takes.mono hle }

theorem retryLoop_spec {p : Sql T ε α} {spec : StateT T (Except ε) α} (h : Queries n p spec)
    (attempts : Nat) {s : Session T} (hw : s.connection.working = none) :
    (Sql.retryLoop p attempts s).2.connection = s.connection ∧
    (∀ a, (Sql.retryLoop p attempts s).1 = .ok a →
      spec s.connection.tables = .ok (a, s.connection.tables)) ∧
    ∀ e, (Sql.retryLoop p attempts s).1 = .error (.thrown e) →
      spec s.connection.tables = .error e := by
  induction attempts generalizing s with
  | zero =>
      refine ⟨rfl, ?_, ?_⟩
      · intro a hres
        cases hres
      · intro e hres
        cases hres
  | succ attempts ih =>
      rcases Sql.retryLoop_cases p attempts s with ⟨-, hrun⟩ | ⟨s', hp, hnext⟩
      · rw [hrun]
        exact ⟨h.connection s hw, fun a => h.ok s a hw, fun e => h.thrown s e hw⟩
      · have hsame := h.connection s hw
        rw [hp] at hsame
        dsimp only at hsame
        rcases hnext with ⟨e, hrun, hne⟩ | hrun
        · rw [hrun]
          refine ⟨hsame, fun a hres => ?_, fun e' hres => ?_⟩
          · cases hres
          · exact absurd (Except.error.inj hres) (hne e')
        · rw [hrun, ← hsame]
          exact ih (by dsimp only; rw [hsame, hw])

/-- A retried query ends as its reading does, or with no result of its own. -/
theorem retry_spec {p : Sql T ε α} {spec : StateT T (Except ε) α} (h : Queries n p spec)
    {s : Session T} (hw : s.connection.working = none) :
    (Sql.retry p s).2.connection = s.connection ∧
    (∀ a, (Sql.retry p s).1 = .ok a → spec s.connection.tables = .ok (a, s.connection.tables)) ∧
    ∀ e, (Sql.retry p s).1 = .error (.thrown e) → spec s.connection.tables = .error e :=
  h.retryLoop_spec _ hw

end Queries

/-! ## Code whose result is known -/

/-- Code of at most `n` queries that changes nothing, throws nothing of its own, and has
only results that satisfy `post`. -/
structure Yields (n : Nat) (p : Sql T ε α) (c : Connection T) (post : α → Prop) : Prop where
  connection : ∀ script, (p ⟨c, script⟩).2.connection = c
  ok : ∀ script a, (p ⟨c, script⟩).1 = .ok a → post a
  no_throw : ∀ script e, (p ⟨c, script⟩).1 ≠ .error (.thrown e)
  /-- It has a result when no statement fails. -/
  smooth : ∀ script, Smooth script → n ≤ script.length → (∃ a, (p ⟨c, script⟩).1 = .ok a) ∧
    Smooth (p ⟨c, script⟩).2.script ∧ script.length ≤ (p ⟨c, script⟩).2.script.length + n

namespace Yields

variable {n k : Nat} {c : Connection T} {post : α → Prop} {post' : β → Prop}

theorem pure {a : α} (h : post a) : Yields 0 (Pure.pure a : Sql T ε α) c post where
  connection _ := rfl
  ok _ b hb := by
    cases hb
    exact h
  no_throw _ _ hb := by cases hb
  smooth _ hs _ := ⟨⟨a, rfl⟩, hs, le_refl _⟩

theorem bind {p : Sql T ε α} {f : α → Sql T ε β} (hp : Yields n p c post)
    (hf : ∀ a, post a → Yields k (f a) c post') : Yields (n + k) (p >>= f) c post' := by
  refine ⟨fun script => ?_, fun script b hb => ?_, fun script e he => ?_, fun script hs hlen => ?_⟩ <;>
  have hsame := hp.connection script <;>
  have hpost := hp.ok script <;>
  rw [Sql.bind_def] at *
  · rcases hres : p ⟨c, script⟩ with ⟨e | a, s'⟩ <;> rw [hres] at hsame hpost
    · rwa [Sql.bind_error hres]
    · obtain rfl : s'.connection = c := hsame
      rw [Sql.bind_ok hres]
      exact (hf a (hpost a rfl)).connection s'.script
  · rcases hres : p ⟨c, script⟩ with ⟨e | a, s'⟩ <;> rw [hres] at hsame hpost
    · rw [Sql.bind_error hres] at hb
      cases hb
    · obtain rfl : s'.connection = c := hsame
      rw [Sql.bind_ok hres] at hb
      exact (hf a (hpost a rfl)).ok s'.script b hb
  · rcases hres : p ⟨c, script⟩ with ⟨e' | a, s'⟩ <;> rw [hres] at hsame hpost
    · rw [Sql.bind_error hres] at he
      cases he
      exact hp.no_throw script e (by rw [hres])
    · obtain rfl : s'.connection = c := hsame
      rw [Sql.bind_ok hres] at he
      exact (hf a (hpost a rfl)).no_throw s'.script e he
  · obtain ⟨⟨a, hok⟩, hrest, hleft⟩ := hp.smooth script hs (by omega)
    rcases hres : p ⟨c, script⟩ with ⟨r, c', rest⟩
    rw [hres] at hsame hpost hok hrest hleft
    obtain rfl : r = .ok a := hok
    obtain rfl : c' = c := hsame
    rw [Sql.bind_ok hres]
    dsimp only at hleft
    obtain ⟨hend, hrest', hleft'⟩ := (hf a (hpost a rfl)).smooth rest hrest (by omega)
    exact ⟨hend, hrest', by omega⟩

theorem mono {p : Sql T ε α} (h : Yields n p c post) (hle : n ≤ k) : Yields k p c post :=
  { h with smooth := fun script hs hlen =>
      have hend := h.smooth script hs (hle.trans hlen)
      ⟨hend.1, hend.2.1, hend.2.2.trans (by omega)⟩ }

theorem weaken {p : Sql T ε α} {post' : α → Prop} (h : Yields n p c post)
    (hpost : ∀ a, post a → post' a) : Yields n p c post' :=
  { h with ok := fun script a ha => hpost a (h.ok script a ha) }

/-- A retried query whose reading has a result. -/
theorem retry {p : Sql T ε α} {spec : StateT T (Except ε) α} (h : Queries n p spec) {a : α}
    (hclosed : c.working = none) (hspec : spec c.tables = .ok (a, c.tables)) (hpost : post a) :
    Yields n (Sql.retry p) c post where
  connection script := (h.retry_spec (s := ⟨c, script⟩) hclosed).1
  ok script b hb := by
    have hres := (h.retry_spec (s := ⟨c, script⟩) hclosed).2.1 b hb
    rw [hspec] at hres
    cases hres
    exact hpost
  no_throw script e he := by
    have hres := (h.retry_spec (s := ⟨c, script⟩) hclosed).2.2 e he
    rw [hspec] at hres
    cases hres
  smooth script hs hlen := by
    obtain ⟨hrest, hend⟩ := h.smooth ⟨c, script⟩ hclosed hs
    have hsame : Sql.retry p ⟨c, script⟩ = p ⟨c, script⟩ :=
      Sql.retryLoop_of_ne (Failure.ne_busy hend)
    rw [hsame]
    rcases hend.resolve_left (h.takes.ended ⟨c, script⟩ hlen) with hok | ⟨e, he⟩
    · exact ⟨hok, hrest, h.takes.rest ⟨c, script⟩⟩
    · have hres := h.thrown ⟨c, script⟩ e hclosed he
      rw [hspec] at hres
      cases hres

end Yields

end Rules

end Foundation
end Archinix
