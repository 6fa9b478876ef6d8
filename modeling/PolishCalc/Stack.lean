import PolishCalc.Operator
import PolishCalc.Outcome
import PolishCalc.Text.Lines
import PolishCalc.Text.Numeral

/-! # The operand stack

The stack machine keeps its operands in a list with the top first.  An operator
takes its operands off before it is applied, so they are gone also when it
fails, and an operator that finds too few takes all there are.
-/
namespace PolishCalc

open Text (joinLines)

/-- Operands, the top first. -/
abbrev Stack := List Int32

namespace Stack

/-- The top value. -/
def top : Stack → Except Fault Int32
  | [] => .error .emptyStack
  | v :: _ => .ok v

/-- The top value and the stack below it. -/
def pop : Stack → Except Fault (Int32 × Stack)
  | [] => .error .emptyStack
  | v :: rest => .ok (v, rest)

/-- Replace the top value by an operator's value on it. -/
def applyUnary (op : UnaryOp) : Stack → Outcome Stack
  | [] => ⟨[], some .emptyStack⟩
  | v :: rest => Outcome.ofValue rest (op.apply v) (· :: rest)

/-- Replace the two top values by an operator's value on them: the top value is
the right operand. -/
def applyBinary (op : BinaryOp) : Stack → Outcome Stack
  | r :: l :: rest => Outcome.ofValue rest (op.apply l r) (· :: rest)
  | _ => ⟨[], some .emptyStack⟩

/-- One line of a report: how deep the value lies, and the value. -/
def entryLine (entry : Int32 × Nat) : String :=
  Numeral.naturalText entry.2 ++ ": " ++ Numeral.text entry.1

/-- The stack as text, a line for each value from the top down. -/
def report (s : Stack) : String :=
  joinLines (if s.isEmpty then ["EMPTY"] else s.zipIdx.map entryLine)

end Stack
end PolishCalc
