import PolishCalc.Machine
import PolishCalc.Proofs.Evaluation

/-! # What lowered code does

The code of an expression, run on any memory, pushes the expression's value and
changes nothing else; if the expression has no value, the run stops with the fault
that direct evaluation reports.  In that case the stack is not what it was: each
binary operator whose right operand holds the fault has its left operand's value
on the stack already.  `Expr.residue` lists those values, so the equation
`Memory.execAll_lower` covers success and failure alike, whatever lies below on the
stack.

A statement consumes the one value that its expression pushed.  So a program's code
leaves the session that performing the program leaves, with the same fault, and on
success the stack it found (`Memory.execAll_lower_program`).
-/
namespace PolishCalc

namespace Expr

/-- What an expression without a value leaves on the stack, the top first: the
values of the left operands of those operators that hold the fault in their right
operand.  Nothing, for an expression that has a value. -/
def residue (b : Bindings) : Expr → Stack
  | const _ => []
  | var _ => []
  | unary _ e => e.residue b
  | binary _ l r =>
    match l.eval b with
    | .error _ => l.residue b
    | .ok v =>
      match r.eval b with
      | .error _ => r.residue b ++ [v]
      | .ok _ => []

variable {b : Bindings}

theorem residue_binary_of_left {l r : Expr} {f : Fault} (op : BinaryOp)
    (h : l.eval b = .error f) : (binary op l r).residue b = l.residue b := by
  rw [residue, h]

theorem residue_binary_of_right {l r : Expr} {v : Int32} {f : Fault} (op : BinaryOp)
    (hl : l.eval b = .ok v) (hr : r.eval b = .error f) :
    (binary op l r).residue b = r.residue b ++ [v] := by
  rw [residue, hl, hr]

theorem residue_of_ok {e : Expr} {v : Int32} (h : e.eval b = .ok v) : e.residue b = [] := by
  induction e generalizing v with
  | const w => rfl
  | var name => rfl
  | unary op e ih =>
    obtain ⟨w, he, -⟩ := bind_eq_ok_iff.mp h
    exact ih he
  | binary op l r =>
    obtain ⟨w, hl, h⟩ := bind_eq_ok_iff.mp h
    obtain ⟨u, hr, -⟩ := bind_eq_ok_iff.mp h
    rw [residue, hl, hr]

end Expr

namespace Memory

theorem execAll_cons (m : Memory) (i : Instruction) (c : Code) :
    m.execAll (i :: c) = (m.exec i).andThen fun next => next.execAll c := rfl

theorem execAll_singleton (m : Memory) (i : Instruction) : m.execAll [i] = m.exec i := by
  rw [execAll_cons]
  obtain ⟨s, _ | f⟩ := m.exec i <;> rfl

/-! ## Operators on a stack that holds their operands -/

theorem exec_unary (m : Memory) (op : UnaryOp) (v : Int32) (s : Stack) :
    (m.withStack (v :: s)).exec (.unary op) =
      Outcome.ofValue (m.withStack s) (op.apply v) fun w => m.withStack (w :: s) := by
  rw [exec, withStack_stack, Stack.applyUnary]
  cases op.apply v <;> rfl

theorem exec_binary (m : Memory) (op : BinaryOp) (v w : Int32) (s : Stack) :
    (m.withStack (w :: v :: s)).exec (.binary op) =
      Outcome.ofValue (m.withStack s) (op.apply v w) fun u => m.withStack (u :: s) := by
  rw [exec, withStack_stack, Stack.applyBinary]
  cases op.apply v w <;> rfl

/-! ## Expressions -/

/-- **The code of an expression pushes its value,** or stops with its fault and
leaves its residue. -/
theorem execAll_lower (m : Memory) (e : Expr) :
    m.execAll e.lower =
      Outcome.ofValue (m.withStack (e.residue m.bindings ++ m.stack)) (e.eval m.bindings)
        fun v => m.withStack (v :: m.stack) := by
  -- The memory is general: the right operand of an operator runs on top of the left one's value.
  induction e generalizing m with
  | const v => rfl
  | var name =>
    rw [Expr.lower_var, execAll_singleton]
    rfl
  | unary op e ih =>
    rw [Expr.lower_unary, execAll_append, ih, Expr.eval_unary]
    cases he : e.eval m.bindings with
    | error f => rfl
    | ok v =>
      rw [Outcome.ofValue_ok, Outcome.andThen_none, execAll_singleton, exec_unary, Expr.residue,
        Expr.residue_of_ok he]
      rfl
  | binary op l r ihl ihr =>
    rw [Expr.lower_binary, execAll_append, execAll_append, ihl, Expr.eval_binary]
    cases hl : l.eval m.bindings with
    | error f =>
      rw [Expr.residue_binary_of_left op hl]
      rfl
    | ok v =>
      rw [Outcome.ofValue_ok, Outcome.andThen_none, ihr, ok_bind]
      show Outcome.andThen (Outcome.ofValue _ (r.eval m.bindings) _) _ = _
      cases hr : r.eval m.bindings with
      | error f =>
        rw [Expr.residue_binary_of_right op hl hr, List.append_assoc]
        rfl
      | ok w =>
        have hresidue : (Expr.binary op l r).residue m.bindings = [] := by
          rw [Expr.residue, hl, hr]
        rw [Outcome.ofValue_ok, Outcome.andThen_none, execAll_singleton, hresidue, ok_bind]
        exact exec_binary m op v w m.stack

/-! ## Statements and programs -/

/-- The last instruction of a statement uses the value as the statement does. -/
theorem exec_last (m : Memory) (a : Statement) (v : Int32) :
    (m.withStack (v :: m.stack)).exec a.last =
      ⟨m.withSession (m.toSession.accept a v), none⟩ := by
  cases a <;> rfl

/-- The code of a statement performs it and leaves the stack alone. -/
theorem execAll_lower_statement (m : Memory) (a : Statement) :
    m.execAll a.lower =
      Outcome.ofValue (m.withStack (a.value.residue m.bindings ++ m.stack))
        (a.value.eval m.bindings) fun v => m.withSession (m.toSession.accept a v) := by
  rw [Statement.lower_eq, execAll_append, execAll_lower]
  cases a.value.eval m.bindings with
  | error f => rfl
  | ok v =>
    rw [Outcome.ofValue_ok, Outcome.andThen_none, execAll_singleton]
    exact m.exec_last a v

/-- **The code of a program performs it.**  Session and fault are those of performing
the program; operands are left on the stack by a fault only. -/
theorem execAll_lower_program (m : Memory) (p : Program) :
    ∃ left : Stack,
      m.execAll p.lower =
        (m.toSession.performAll p).map (fun s => (m.withSession s).withStack (left ++ m.stack)) ∧
      ((m.toSession.performAll p).fault = none → left = []) := by
  induction p generalizing m with
  | nil => exact ⟨[], rfl, fun _ => rfl⟩
  | cons a rest ih =>
    rw [Program.lower_cons, execAll_append, execAll_lower_statement, Session.performAll_cons]
    cases hv : a.value.eval m.bindings with
    | error f =>
      refine ⟨a.value.residue m.bindings, ?_, ?_⟩
      · rw [Session.perform_of_error hv]
        rfl
      · rw [Session.perform_of_error hv]
        exact nofun
    | ok v =>
      rw [Session.perform_of_ok hv, Outcome.ofValue_ok, Outcome.andThen_none, Outcome.andThen_none]
      exact ih _

end Memory
end PolishCalc
