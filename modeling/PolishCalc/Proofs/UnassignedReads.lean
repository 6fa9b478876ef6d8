import Mathlib.Data.Nat.Find
import PolishCalc.Proofs.FailedStatements
import PolishCalc.Proofs.StrictEvaluation

/-! # Reading a name before it is assigned

Which names are bound when a run gets to a statement does not depend on values: they are the
names that the statements before it assign (`Session.isSome_get?_run`), because a run that
gets there has performed all of them.  So one can tell from the text of a program which reads
find a name without a value.  A program without such reads can only fail in arithmetic.  A
program that has one always fails, at the latest in the first statement that contains one:
evaluation is strict, so a statement that reads an unbound name has no value.  There it may
still fail in arithmetic, if that comes first; but the fault of a missing value belongs to this
statement and to no other.
-/
namespace PolishCalc

variable {p : Program} {i k : Nat} {name : String} {s s' : Session} {a : Statement} {f : Fault}

namespace Program

/-- The names that statements assign. -/
def assigned (p : Program) : List String := p.filterMap Statement.target?

/-- The names that statement `i` reads and that no statement before it assigns.  An assignment
does not count for its own value. -/
def unassignedReads (p : Program) (i : Nat) : List String :=
  (p[i]?.elim [] fun a => a.value.names).filter (· ∉ assigned (p.take i))

/-- Statement `i` is the first that reads a name which no statement before it assigns. -/
def FirstUnassignedRead (p : Program) (i : Nat) : Prop :=
  p.unassignedReads i ≠ [] ∧ ∀ j < i, p.unassignedReads j = []

instance (p : Program) (i : Nat) : Decidable (p.FirstUnassignedRead i) :=
  inferInstanceAs (Decidable (_ ∧ _))

theorem mem_unassignedReads_iff :
    name ∈ p.unassignedReads i ↔
      ∃ a ∈ p[i]?, name ∈ a.value.names ∧ name ∉ assigned (p.take i) := by
  rw [unassignedReads, List.mem_filter]
  cases p[i]? <;> simp

/-- Where there is such a read, there is a first one. -/
theorem exists_firstUnassignedRead (h : ∃ i, p.unassignedReads i ≠ []) :
    ∃ i, p.FirstUnassignedRead i :=
  ⟨Nat.find h, Nat.find_spec h, fun _ hj => not_not.mp (Nat.find_min h hj)⟩

end Program

/-! ## The names that are bound -/

namespace Session

/-- A statement that succeeds binds the name that it assigns. -/
theorem isSome_get?_perform (h : s.perform a = ⟨s', none⟩) (name : String) :
    (s'.bindings.get? name).isSome ↔
      (s.bindings.get? name).isSome ∨ a.target? = some name := by
  rcases s.perform_cases a with ⟨v, -, hok⟩ | ⟨f, -, herror⟩
  · rw [hok] at h
    cases h
    cases a with
    | print e => simp [accept, emit, Statement.target?]
    | assign target e =>
      rw [accept, bind, Bindings.get?_set, Statement.target?, Option.some.injEq]
      by_cases hname : name = target
      · simp [hname]
      · simp [hname, Ne.symm hname]
  · rw [herror] at h
    cases h

/-- Statements that all succeed bind the names that they assign. -/
theorem isSome_get?_performAll (h : s.performAll p = ⟨s', none⟩) (name : String) :
    (s'.bindings.get? name).isSome ↔
      (s.bindings.get? name).isSome ∨ name ∈ Program.assigned p := by
  induction p generalizing s with
  | nil =>
    cases h
    simp [Program.assigned]
  | cons a rest ih =>
    rw [performAll_cons, Outcome.andThen_eq_none_iff] at h
    obtain ⟨next, hperform, hrest⟩ := h
    have hassigned : name ∈ Program.assigned (a :: rest) ↔
        a.target? = some name ∨ name ∈ Program.assigned rest := by
      simp [Program.assigned]
    rw [ih hrest, isSome_get?_perform hperform, hassigned, or_assoc]

/-- **A run that comes to its end has bound exactly the names that are assigned.** -/
theorem isSome_get?_run (h : run {} p = ⟨s, none⟩) (name : String) :
    (s.bindings.get? name).isSome ↔ name ∈ Program.assigned p := by
  rw [run_eq] at h
  rw [isSome_get?_performAll h]
  simp [Bindings.get?]

end Session

/-! ## Where a program stops -/

namespace Program

/-- A name has no value when a run gets to index `i` exactly if it is not assigned before. -/
theorem get?_eq_none_iff (h : Session.run {} (p.take i) = ⟨s, none⟩) :
    s.bindings.get? name = none ↔ name ∉ assigned (p.take i) := by
  rw [← Session.isSome_get?_run h, Option.not_isSome_iff_eq_none]

/-- Where the front of a program stops, the program stops. -/
theorem StopsAt.of_take (h : StopsAt (p.take i) k s f) : k < i ∧ p.StopsAt k s f := by
  obtain ⟨a, here, reached, fails⟩ := h
  rw [List.getElem?_take] at here
  split at here
  · rename_i hk
    rw [List.take_take, Nat.min_eq_left (Nat.le_of_lt hk)] at reached
    exact ⟨hk, a, here, reached, fails⟩
  · cases here

/-- **The fault at which a program stops:** one of arithmetic, or a name that the statement
reads and that is not assigned before. -/
theorem StopsAt.fault (h : p.StopsAt k s f) :
    f = .divideByZero ∨ f = .negativeSquareRoot ∨
      ∃ name ∈ p.unassignedReads k, f = .uninitialized name := by
  obtain ⟨a, here, reached, fails⟩ := h
  rcases s.perform_cases a with ⟨v, -, hok⟩ | ⟨g, heval, herror⟩
  · rw [hok] at fails
    cases fails
  · rw [herror] at fails
    cases fails
    rcases Expr.eval_fault heval with hf | hf | ⟨name, hread, hf, hnone⟩
    · exact .inl hf
    · exact .inr (.inl hf)
    · exact .inr (.inr ⟨name,
        mem_unassignedReads_iff.mpr ⟨a, here, hread, (get?_eq_none_iff reached).mp hnone⟩, hf⟩)

/-- **A read of a name that is not assigned before stops the program,** there or earlier. -/
theorem exists_stopsAt_of_mem (h : name ∈ p.unassignedReads i) :
    ∃ k ≤ i, ∃ s f, p.StopsAt k s f := by
  obtain ⟨a, here, hread, hassigned⟩ := mem_unassignedReads_iff.mp h
  rcases hrun : Session.run {} (p.take i) with ⟨s, _ | f⟩
  · -- The run gets to the statement, whose expression then has no value.
    obtain ⟨f, hf⟩ := Expr.exists_error_of_unbound hread ((get?_eq_none_iff hrun).mpr hassigned)
    have hfault : (s.perform a).fault = some f := by rw [Session.perform_of_error hf]
    exact ⟨i, Nat.le_refl i, s, f, a, here, hrun, hfault⟩
  · obtain ⟨k, hstops⟩ := Session.exists_stopsAt_of_run (congrArg Outcome.fault hrun)
    obtain ⟨hk, hstops⟩ := hstops.of_take
    exact ⟨k, Nat.le_of_lt hk, _, f, hstops⟩

/-- A name for whose value a program stops is not assigned before. -/
theorem StopsAt.mem_unassignedReads (h : p.StopsAt k s (.uninitialized name)) :
    name ∈ p.unassignedReads k := by
  rcases h.fault with hf | hf | ⟨other, hother, hf⟩
  · cases hf
  · cases hf
  · cases hf
    exact hother

theorem FirstUnassignedRead.exists_stopsAt (h : p.FirstUnassignedRead i) :
    ∃ k ≤ i, ∃ s f, p.StopsAt k s f := by
  obtain ⟨name, hname⟩ := List.exists_mem_of_ne_nil _ h.1
  exact exists_stopsAt_of_mem hname

/-- **If a program stops for want of a value, it does so at the first unassigned read:** it
stops there or earlier, and earlier statements have no such reads. -/
theorem FirstUnassignedRead.eq_of_stopsAt (h : p.FirstUnassignedRead i)
    (hstops : p.StopsAt k s (.uninitialized name)) : k = i := by
  obtain ⟨j, hj, s', f, hj'⟩ := h.exists_stopsAt
  have hle : k ≤ i := hj'.unique hstops ▸ hj
  have hge : i ≤ k := by
    apply Nat.le_of_not_lt
    intro hlt
    have hname := hstops.mem_unassignedReads
    rw [h.2 k hlt] at hname
    exact absurd hname List.not_mem_nil
  exact Nat.le_antisymm hle hge

end Program

/-- **Reads of unassigned names are decided by the text of a program.**  Without such a read, a
run ends without a fault or with one of arithmetic.  Otherwise there is a first statement with
such a read, and a run always fails, there or earlier; and if it fails for want of a value, it
does so at this statement, and the name is one of those that the statement reads without an
assignment before. -/
theorem unassigned_reads_decide_faults (p : Program) :
    let ran := Session.run {} p
    ((∀ i < p.length, p.unassignedReads i = []) →
      ran.fault = none ∨ ran.fault = some .divideByZero ∨
        ran.fault = some .negativeSquareRoot) ∧
    ((∃ i, p.unassignedReads i ≠ []) → ∃ i, p.FirstUnassignedRead i) ∧
    (∀ i, p.FirstUnassignedRead i →
      (∃ k ≤ i, ∃ f, p.StopsAt k ran.state f ∧ ran.fault = some f) ∧
      ∀ name, ran.fault = some (.uninitialized name) →
        p.StopsAt i ran.state (.uninitialized name) ∧ name ∈ p.unassignedReads i) := by
  intro ran
  refine ⟨?_, Program.exists_firstUnassignedRead, ?_⟩
  · intro assigned
    cases hfault : ran.fault with
    | none => exact .inl rfl
    | some f =>
      obtain ⟨k, hstops⟩ := Session.exists_stopsAt_of_run hfault
      rcases hstops.fault with rfl | rfl | ⟨name, hname, -⟩
      · exact .inr (.inl rfl)
      · exact .inr (.inr rfl)
      · obtain ⟨a, here, -⟩ := hstops
        rw [assigned k (List.getElem?_eq_some_iff.mp here).1] at hname
        exact absurd hname List.not_mem_nil
  · intro i first
    refine ⟨?_, ?_⟩
    · obtain ⟨k, hk, s, f, hstops⟩ := first.exists_stopsAt
      have hran : ran = ⟨s, some f⟩ := hstops.run_eq
      rw [hran]
      exact ⟨k, hk, f, hstops, rfl⟩
    · intro name hfault
      obtain ⟨k, hstops⟩ := Session.exists_stopsAt_of_run hfault
      obtain rfl := first.eq_of_stopsAt hstops
      exact ⟨hstops, hstops.mem_unassignedReads⟩

/-- A program whose names are all assigned before they are read; one whose first assignment
reads its own name; and one that divides by zero in front of the name without a value. -/
theorem unassigned_reads_decide_faults_of_examples :
    let quotient : Expr := .binary .div (.var "x") (.const 0)
    let complete : Program := [.assign "x" (.const 1), .assign "x" quotient]
    let own : Program :=
      [.print (.const 1), .assign "y" (.binary .add (.const 2) (.var "y")), .print (.var "z")]
    let later : Program :=
      [.assign "x" (.const 1), .print (.binary .sub quotient (.var "y")), .print (.var "y")]
    (∀ i < complete.length, complete.unassignedReads i = []) ∧
      (Session.run {} complete).fault = some .divideByZero ∧
      own.FirstUnassignedRead 1 ∧
      own.StopsAt 1 (Session.run {} own).state (.uninitialized "y") ∧
      later.FirstUnassignedRead 1 ∧
      ∃ k ≤ 1, ∃ f, later.StopsAt k (Session.run {} later).state f ∧ f = .divideByZero := by
  intro quotient complete own later
  have assigned : ∀ i < complete.length, complete.unassignedReads i = [] := by decide
  have hown : own.FirstUnassignedRead 1 := by decide
  have hlater : later.FirstUnassignedRead 1 := by decide
  refine ⟨assigned, ?_, hown, ?_, hlater, ?_⟩
  · rcases (unassigned_reads_decide_faults complete).1 assigned with h | h | h
    · exact absurd h (by decide)
    · exact h
    · exact absurd h (by decide)
  · obtain ⟨-, -, hfirst⟩ := unassigned_reads_decide_faults own
    exact ((hfirst 1 hown).2 "y" (by decide)).1
  · obtain ⟨-, -, hfirst⟩ := unassigned_reads_decide_faults later
    obtain ⟨k, hk, f, hstops, hfault⟩ := (hfirst 1 hlater).1
    have hdivide : (Session.run {} later).fault = some .divideByZero := by decide
    exact ⟨k, hk, f, hstops, Option.some.inj (hfault.symm.trans hdivide)⟩

end PolishCalc
