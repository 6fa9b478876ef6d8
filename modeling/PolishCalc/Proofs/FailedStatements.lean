import Mathlib.Logic.ExistsUnique
import PolishCalc.Proofs.Evaluation
import PolishCalc.Proofs.FirstFault

/-! # What a failed statement leaves

A statement evaluates its expression before it binds or prints anything, so one that fails
leaves the session as it found it (`Session.perform_cases`).  This is said of one statement;
here is what it means for many.

A program that fails stops at one statement, and what it leaves is exactly what the
statements before that one leave: there is no trace of the one that failed, and none of those
behind it.  Nor is there a trace of earlier programs, because every run starts anew.

If one goes on behind a failure, the same holds at every place.  A later statement finds the
session that it would find if the failed ones had been left out, although it may read a name
that one of them was to bind.  So the statements that succeeded, performed alone, all succeed
again, with the same outcome each (`Session.log_succeeded`).
-/
namespace PolishCalc

variable {s : Session} {a : Statement} {p : Program} {k : Nat} {f : Fault}

/-! ## Where a program stops -/

/-- A program stops at index `k` in the session `s`: run anew, the first `k` statements come to
their end and leave `s`, and the statement behind them fails there. -/
def Program.StopsAt (p : Program) (k : Nat) (s : Session) (f : Fault) : Prop :=
  ∃ a ∈ p[k]?, Session.run {} (p.take k) = ⟨s, none⟩ ∧ (s.perform a).fault = some f

theorem Program.stopsAt_iff :
    p.StopsAt k s f ↔ ∃ a, Outcome.StopsAt Session.perform {} p k a s f :=
  exists_congr fun _ => ⟨fun ⟨here, reached, fails⟩ => ⟨here, reached, fails⟩,
    fun ⟨here, reached, fails⟩ => ⟨here, reached, fails⟩⟩

/-- A program that stops leaves the session in which it does. -/
theorem Program.StopsAt.run_eq (h : p.StopsAt k s f) : Session.run {} p = ⟨s, some f⟩ := by
  obtain ⟨a, ha⟩ := stopsAt_iff.mp h
  have hrun : Session.run {} p = s.perform a := ha.run_eq
  have hfails := ha.fails
  rcases s.perform_cases a with ⟨v, -, hok⟩ | ⟨g, -, herror⟩
  · rw [hok] at hfails
    cases hfails
  · rw [herror] at hfails
    cases hfails
    rw [hrun, herror]

theorem Program.StopsAt.unique {k' : Nat} {s' : Session} {f' : Fault} (h : p.StopsAt k s f)
    (h' : p.StopsAt k' s' f') : k' = k := by
  obtain ⟨a, ha⟩ := stopsAt_iff.mp h
  obtain ⟨a', ha'⟩ := stopsAt_iff.mp h'
  exact ha.unique ha'

namespace Session

/-- The session that runs leave behind, one run after the other. -/
def afterRuns (s : Session) (earlier : List Program) : Session :=
  earlier.foldl (fun s p => (s.run p).state) s

/-- **A program that fails stops in the session that it leaves.** -/
theorem exists_stopsAt_of_run (h : (run {} p).fault = some f) :
    ∃ k, p.StopsAt k (run {} p).state f := by
  have hfault : (Outcome.run perform {} p).fault = some f := h
  obtain ⟨k, a, s, hstops⟩ := Outcome.exists_stopsAt hfault
  have hprogram : p.StopsAt k s f := Program.stopsAt_iff.mpr ⟨a, hstops⟩
  rw [hprogram.run_eq]
  exact ⟨k, hprogram⟩

/-! ## Statements behind a failed one -/

/-- Statements performed one after the other, also behind one that fails, each with its
outcome. -/
def log (s : Session) : Program → List (Statement × Outcome Session)
  | [] => []
  | a :: rest => (a, s.perform a) :: log (s.perform a).state rest

/-- The statements that succeed if all are performed. -/
def succeeded (s : Session) (p : Program) : Program :=
  ((s.log p).filter fun entry => entry.2.fault.isNone).map (·.1)

/-- The session that is left if all statements are performed. -/
def afterAll (s : Session) (p : Program) : Session :=
  p.foldl (fun s a => (s.perform a).state) s

theorem log_cons (s : Session) (a : Statement) (rest : Program) :
    s.log (a :: rest) = (a, s.perform a) :: (s.perform a).state.log rest := rfl

theorem afterAll_cons (s : Session) (a : Statement) (rest : Program) :
    s.afterAll (a :: rest) = (s.perform a).state.afterAll rest := rfl

theorem succeeded_cons_of_ok {next : Session} (h : s.perform a = ⟨next, none⟩) (rest : Program) :
    s.succeeded (a :: rest) = a :: next.succeeded rest := by
  rw [succeeded, log_cons, h, List.filter_cons_of_pos rfl, List.map_cons, succeeded]

theorem succeeded_cons_of_fault (h : s.perform a = ⟨s, some f⟩) (rest : Program) :
    s.succeeded (a :: rest) = s.succeeded rest := by
  rw [succeeded, log_cons, h, List.filter_cons_of_neg (by simp), succeeded]

/-- **The statements that succeeded, performed alone, end in the same session.** -/
theorem performAll_succeeded (s : Session) (p : Program) :
    s.performAll (s.succeeded p) = ⟨s.afterAll p, none⟩ := by
  induction p generalizing s with
  | nil => rfl
  | cons a rest ih =>
    rcases s.perform_cases a with ⟨v, -, h⟩ | ⟨f, -, h⟩
    · rw [succeeded_cons_of_ok h, performAll_cons, h, Outcome.andThen_none, ih, afterAll_cons, h]
    · rw [succeeded_cons_of_fault h, ih, afterAll_cons, h]

/-- **Each of them has the same outcome as among the failed ones.** -/
theorem log_succeeded (s : Session) (p : Program) :
    s.log (s.succeeded p) = (s.log p).filter fun entry => entry.2.fault.isNone := by
  induction p generalizing s with
  | nil => rfl
  | cons a rest ih =>
    rcases s.perform_cases a with ⟨v, -, h⟩ | ⟨f, -, h⟩
    · rw [succeeded_cons_of_ok h, log_cons, log_cons, h, List.filter_cons_of_pos rfl, ih]
    · rw [succeeded_cons_of_fault h, log_cons, h, List.filter_cons_of_neg (by simp), ih]

end Session

/-- **Runs are fresh, and stop at the first statement that fails.**  Whatever was run before, a
program is run as in a new session.  If it fails, it stops at exactly one index in the session
that it leaves, and the statements behind that index can be any. -/
theorem runs_are_fresh_and_stop_at_first_fault (earlier : List Program) (p : Program) :
    let ran := (Session.afterRuns {} earlier).run p
    ran = Session.run {} p ∧
    ∀ f, ran.fault = some f →
      (∃! k, p.StopsAt k ran.state f) ∧
      ∀ k, p.StopsAt k ran.state f →
        ∀ rest, Session.run {} (p.take (k + 1) ++ rest) = ran := by
  intro ran
  have fresh : ran = Session.run {} p := (Session.run_eq _ p).trans (Session.run_eq {} p).symm
  refine ⟨fresh, fun f hfault => ⟨?_, ?_⟩⟩
  · obtain ⟨k, hstops⟩ := Session.exists_stopsAt_of_run (fresh ▸ hfault)
    refine ⟨k, hstops, fun j hj => ?_⟩
    obtain ⟨a, ha⟩ := Program.stopsAt_iff.mp hstops
    obtain ⟨b, hb⟩ := Program.stopsAt_iff.mp hj
    exact ha.unique hb
  · intro k hstops rest
    obtain ⟨a, ha⟩ := Program.stopsAt_iff.mp hstops
    exact (ha.run_append rest).trans ha.run_eq.symm

/-- A program that reads a name which only an earlier run has bound, behind a statement that
prints and one that binds, and before one that would bind the name. -/
theorem runs_are_fresh_and_stop_at_first_fault_of_unbound_name :
    let earlier : List Program :=
      [[.assign "x" (.const 3), .print (.var "x")], [.print (.binary .div (.const 1) (.const 0))]]
    let p : Program :=
      [.print (.const 1), .assign "y" (.const 2), .print (.var "x"), .assign "x" (.const 5)]
    let ran := (Session.afterRuns {} earlier).run p
    ran.fault = some (.uninitialized "x") ∧ ran.state = ⟨⟨[("y", 2)]⟩, [1]⟩ ∧
      (∀ k, p.StopsAt k ran.state (.uninitialized "x") → k = 2) ∧
      Session.run {} (p.take 3 ++ [.print (.binary .div (.const 7) (.const 0))]) = ran := by
  intro earlier p ran
  obtain ⟨fresh, hstop⟩ := runs_are_fresh_and_stop_at_first_fault earlier p
  have hfault : ran.fault = some (.uninitialized "x") := (congrArg Outcome.fault fresh).trans rfl
  have hstops : p.StopsAt 2 ran.state (.uninitialized "x") := ⟨.print (.var "x"), rfl, rfl, rfl⟩
  obtain ⟨hunique, hrest⟩ := hstop _ hfault
  exact ⟨hfault, (congrArg Outcome.state fresh).trans rfl,
    fun k hk => hunique.unique hk hstops, hrest 2 hstops _⟩

/-- **Failed statements are invisible.**  Statements are performed one after the other, also
behind one that fails.  One that fails leaves the session as it was.  So performing only those
that succeeded fails nowhere and ends in the same session; each of them has the outcome that it
had before; and any statement has the outcome that it would have if only those before it were
performed that succeeded. -/
theorem failed_statements_are_invisible (s : Session) (p : Program) :
    (∀ front a back, p = front ++ a :: back → ∀ f,
      ((s.afterAll front).perform a).fault = some f →
        ((s.afterAll front).perform a).state = s.afterAll front) ∧
    s.performAll (s.succeeded p) = ⟨s.afterAll p, none⟩ ∧
    s.log (s.succeeded p) = (s.log p).filter (fun entry => entry.2.fault.isNone) ∧
    (∀ front a back, p = front ++ a :: back →
      (s.performAll (s.succeeded front)).state.perform a = (s.afterAll front).perform a) := by
  refine ⟨?_, s.performAll_succeeded p, s.log_succeeded p, ?_⟩
  · intro front a back _ f hfault
    exact Session.perform_state_of_fault hfault
  · intro front a back _
    rw [s.performAll_succeeded front]

/-- A statement that would have bound a name anew, one that would have bound it first, and
those that read these names behind them. -/
theorem failed_statements_are_invisible_to_readers :
    let quotient : Expr := .binary .div (.const 1) (.const 0)
    let p : Program :=
      [.assign "x" (.const 1), .assign "x" quotient, .assign "z" (.unary .sqrt (.const (-4))),
        .assign "y" (.binary .add (.var "x") (.const 1)), .print (.var "z"), .print (.var "y")]
    let kept : Program :=
      [.assign "x" (.const 1), .assign "y" (.binary .add (.var "x") (.const 1)), .print (.var "y")]
    ((Session.afterAll {} (p.take 4)).perform (.print (.var "z"))).state =
        Session.afterAll {} (p.take 4) ∧
      Session.performAll {} kept = ⟨⟨⟨[("x", 1), ("y", 2)]⟩, [2]⟩, none⟩ ∧
      (Session.performAll {} (kept.take 2)).state.perform (.print (.var "z")) =
        (Session.afterAll {} (p.take 4)).perform (.print (.var "z")) := by
  intro quotient p kept
  obtain ⟨hfailed, hsession, -, hlater⟩ := failed_statements_are_invisible {} p
  refine ⟨hfailed (p.take 4) _ (p.drop 5) rfl (.uninitialized "z") rfl, ?_,
    hlater (p.take 4) _ (p.drop 5) rfl⟩
  exact hsession.trans rfl

end PolishCalc
