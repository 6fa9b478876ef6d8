import PolishCalc.Machine
import PolishCalc.Proofs.Evaluation

/-! # What an instruction does

Every instruction has the same shape.  It takes a fixed number of operands off the
stack, computes from them and the session, and puts what it computed on what is left of
the stack.  If the computation fails, or if there are too few operands to begin with,
the operands are gone and nothing else has changed.

`Memory.exec_eq` says this once, for all instructions, for success and failure alike.
What later proofs need of an instruction (which faults it can have, how deep it leaves
the stack, which names it binds) is then a fact about `Instruction.compute`, in which
neither the stack below the operands nor the fault path occurs any more.
-/
namespace PolishCalc

namespace Instruction

/-- How many operands an instruction takes off the stack. -/
def needs : Instruction → Nat
  | push _ | load _ => 0
  | store _ | print | unary _ => 1
  | binary _ => 2

/-- By how much an instruction changes the depth of the stack. -/
def change : Instruction → Int
  | push _ | load _ => 1
  | store _ | print | binary _ => -1
  | unary _ => 0

theorem needs_le_two (i : Instruction) : i.needs ≤ 2 := by
  cases i <;> simp [needs]

/-- No instruction lowers the stack by more than one. -/
theorem neg_one_le_change (i : Instruction) : -1 ≤ i.change := by
  cases i <;> simp [change]

/-- What an instruction makes of a session and of its operands, the top first: the next
session, and the values that it puts on the stack. -/
def compute (s : Session) : Instruction → Stack → Except Fault (Session × Stack)
  | push v, _ => .ok (s, [v])
  | load name, _ => (s.bindings.read name).map fun v => (s, [v])
  | store name, [v] => .ok (s.bind name v, [])
  | print, [v] => .ok (s.emit v, [])
  | unary op, [v] => (op.apply v).map fun w => (s, [w])
  | binary op, [r, l] => (op.apply l r).map fun w => (s, [w])
  | _, _ => .error .emptyStack

variable {s s' : Session} {i : Instruction} {operands pushed : Stack} {f : Fault}

/-- Too few operands are a fault of their own. -/
theorem compute_of_short (h : operands.length < i.needs) :
    i.compute s operands = .error .emptyStack := by
  cases i with
  | push v => exact absurd h (Nat.not_lt_zero _)
  | load name => exact absurd h (Nat.not_lt_zero _)
  | store name | print | unary op =>
    have hnil : operands = [] := List.length_eq_zero_iff.mp (Nat.lt_one_iff.mp h)
    subst hnil
    rfl
  | binary op =>
    match operands, h with
    | [], _ => rfl
    | [_], _ => rfl

/-- With operands enough, the faults are those of arithmetic, and of a name without a
value. -/
theorem compute_fault (enough : operands.length = i.needs)
    (h : i.compute s operands = .error f) :
    f = .divideByZero ∨ f = .negativeSquareRoot ∨
      ∃ name, i = .load name ∧ f = .uninitialized name ∧ s.bindings.get? name = none := by
  cases i with
  | push v => cases h
  | load name =>
    obtain ⟨hf, hnone⟩ := Bindings.read_fault (map_eq_error_iff.mp h)
    exact .inr (.inr ⟨name, rfl, hf, hnone⟩)
  | store name | print =>
    obtain ⟨v, rfl⟩ := List.length_eq_one_iff.mp enough
    cases h
  | unary op =>
    obtain ⟨v, rfl⟩ := List.length_eq_one_iff.mp enough
    exact .inr (.inl (UnaryOp.apply_fault (map_eq_error_iff.mp h)))
  | binary op =>
    match operands, enough with
    | [_, _], _ => exact .inl (BinaryOp.apply_fault (map_eq_error_iff.mp h))

/-- A computation that succeeds has put back as many operands as the instruction's change
of depth says, and has bound a name only for `store`. -/
theorem compute_ok (enough : operands.length = i.needs)
    (h : i.compute s operands = .ok (s', pushed)) :
    (pushed.length : Int) = i.needs + i.change ∧
      ∀ name, (s'.bindings.get? name).isSome ↔
        (s.bindings.get? name).isSome ∨ i = .store name := by
  cases i with
  | push v =>
    cases h
    exact ⟨rfl, fun name => by simp⟩
  | load name =>
    obtain ⟨v, -, hv⟩ := map_eq_ok_iff.mp h
    cases hv
    exact ⟨rfl, fun name => by simp⟩
  | store target =>
    obtain ⟨v, rfl⟩ := List.length_eq_one_iff.mp enough
    cases h
    refine ⟨rfl, fun name => ?_⟩
    rw [Session.bind, Bindings.get?_set, store.injEq]
    by_cases hname : name = target
    · simp [hname]
    · simp [hname, Ne.symm hname]
  | print =>
    obtain ⟨v, rfl⟩ := List.length_eq_one_iff.mp enough
    cases h
    exact ⟨rfl, fun name => by simp [Session.emit]⟩
  | unary op =>
    obtain ⟨v, rfl⟩ := List.length_eq_one_iff.mp enough
    obtain ⟨w, -, hw⟩ := map_eq_ok_iff.mp h
    cases hw
    exact ⟨rfl, fun name => by simp⟩
  | binary op =>
    match operands, enough with
    | [_, _], _ =>
      obtain ⟨w, -, hw⟩ := map_eq_ok_iff.mp h
      cases hw
      exact ⟨rfl, fun name => by simp⟩

end Instruction

namespace Memory

/-- **Every instruction takes its operands, computes, and puts back.**  On a failure the
operands are gone; too few of them are all lost. -/
theorem exec_eq (m : Memory) (i : Instruction) :
    m.exec i =
      Outcome.ofValue (m.withStack (m.stack.drop i.needs))
        (i.compute m.toSession (m.stack.take i.needs))
        fun (s, pushed) => (m.withSession s).withStack (pushed ++ m.stack.drop i.needs) := by
  -- On a stack with its top cells in sight both sides compute to the same case analysis,
  -- which is on the value for `load` and on the operator's value for the operators.
  obtain ⟨s, stack⟩ := m
  cases i with
  | push v => rfl
  | load name =>
    show Outcome.ofValue _ (s.bindings.read name) _ =
      Outcome.ofValue _ ((s.bindings.read name).map _) _
    cases s.bindings.read name <;> rfl
  | store name | print => cases stack <;> rfl
  | unary op =>
    cases stack with
    | nil => rfl
    | cons v rest =>
      show Outcome.map _ (Outcome.ofValue rest (op.apply v) _) =
        Outcome.ofValue _ ((op.apply v).map _) _
      cases op.apply v <;> rfl
  | binary op =>
    match stack with
    | [] => rfl
    | [_] => rfl
    | r :: l :: rest =>
      show Outcome.map _ (Outcome.ofValue rest (op.apply l r) _) =
        Outcome.ofValue _ ((op.apply l r).map _) _
      cases op.apply l r <;> rfl

variable {m m' : Memory} {i : Instruction} {f : Fault}

/-- An instruction that finds too few operands takes them all. -/
theorem exec_of_short (h : m.stack.length < i.needs) :
    m.exec i = ⟨m.withStack [], some .emptyStack⟩ := by
  rw [exec_eq, Instruction.compute_of_short (Nat.lt_of_le_of_lt (List.length_take_le' _ _) h),
    List.drop_of_length_le (Nat.le_of_lt h)]
  rfl

/-- An instruction that does not underflow finds its operands. -/
theorem needs_le_of_ne_emptyStack (h : (m.exec i).fault ≠ some .emptyStack) :
    i.needs ≤ m.stack.length := by
  apply Nat.le_of_not_lt
  intro short
  rw [exec_of_short short] at h
  exact h rfl

/-- **An instruction that fails has lost its operands,** all of those that it found, and has
changed nothing else. -/
theorem exec_state_of_fault (h : (m.exec i).fault = some f) :
    (m.exec i).state = m.withStack (m.stack.drop i.needs) := by
  rw [exec_eq] at h ⊢
  cases hcompute : i.compute m.toSession (m.stack.take i.needs) with
  | ok result =>
    rw [hcompute] at h
    cases h
  | error g => rfl

/-- The faults of an instruction that finds its operands. -/
theorem exec_fault (enough : i.needs ≤ m.stack.length) (h : (m.exec i).fault = some f) :
    f = .divideByZero ∨ f = .negativeSquareRoot ∨
      ∃ name, i = .load name ∧ f = .uninitialized name ∧ m.bindings.get? name = none := by
  rw [exec_eq] at h
  cases hcompute : i.compute m.toSession (m.stack.take i.needs) with
  | ok result =>
    rw [hcompute] at h
    cases h
  | error g =>
    rw [hcompute] at h
    cases h
    exact Instruction.compute_fault (List.length_take_of_le enough) hcompute

/-- The faults of an instruction on any memory. -/
theorem exec_fault_cases (h : (m.exec i).fault = some f) :
    f = .emptyStack ∨ f = .divideByZero ∨ f = .negativeSquareRoot ∨
      ∃ name, f = .uninitialized name := by
  by_cases enough : i.needs ≤ m.stack.length
  · rcases exec_fault enough h with hf | hf | ⟨name, -, hf, -⟩
    · exact .inr (.inl hf)
    · exact .inr (.inr (.inl hf))
    · exact .inr (.inr (.inr ⟨name, hf⟩))
  · rw [exec_of_short (Nat.lt_of_not_le enough)] at h
    exact .inl (Option.some.inj h).symm

/-- What an instruction that succeeds does to the depth of the stack and to the names
that are bound. -/
theorem exec_ok (h : m.exec i = ⟨m', none⟩) :
    (m'.stack.length : Int) = m.stack.length + i.change ∧
      ∀ name, (m'.bindings.get? name).isSome ↔
        (m.bindings.get? name).isSome ∨ i = .store name := by
  have enough : i.needs ≤ m.stack.length := needs_le_of_ne_emptyStack (by rw [h]; exact nofun)
  rw [exec_eq] at h
  cases hcompute : i.compute m.toSession (m.stack.take i.needs) with
  | error f =>
    rw [hcompute] at h
    cases h
  | ok result =>
    obtain ⟨s, pushed⟩ := result
    rw [hcompute] at h
    cases h
    obtain ⟨hdepth, hnames⟩ :=
      Instruction.compute_ok (List.length_take_of_le enough) hcompute
    refine ⟨?_, hnames⟩
    rw [withStack_stack, List.length_append, List.length_drop]
    omega

end Memory
end PolishCalc
