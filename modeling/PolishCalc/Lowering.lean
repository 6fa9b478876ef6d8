import PolishCalc.Instruction
import PolishCalc.Program

/-! # Lowering programs to code

The code of an expression computes its operands, in order, and then applies the
operator, so that every operator finds its operands on top of the stack; a
statement's code ends by storing or printing the value.  Lowering is defined with
the code that follows as a parameter, and the equations say that this code is
only ever put behind.
-/
namespace PolishCalc

namespace Expr

/-- The code that computes an expression, in front of `rest`. -/
def lowerOnto : Expr → Code → Code
  | const v, rest => .push v :: rest
  | var name, rest => .load name :: rest
  | unary op e, rest => e.lowerOnto (.unary op :: rest)
  | binary op l r, rest => l.lowerOnto (r.lowerOnto (.binary op :: rest))

/-- The code that computes an expression. -/
def lower (e : Expr) : Code := e.lowerOnto []

theorem lowerOnto_eq (e : Expr) (rest : Code) : e.lowerOnto rest = e.lower ++ rest := by
  induction e generalizing rest with
  | const v => rfl
  | var name => rfl
  | unary op e ih => rw [lower, lowerOnto, lowerOnto, ih, ih [_], List.append_assoc]; rfl
  | binary op l r ihl ihr =>
    rw [lower, lowerOnto, lowerOnto, ihl, ihr, ihl (r.lowerOnto _), ihr [_]]
    simp

@[simp] theorem lower_const (v : Int32) : (const v).lower = [.push v] := rfl

@[simp] theorem lower_var (name : String) : (var name).lower = [.load name] := rfl

@[simp] theorem lower_unary (op : UnaryOp) (e : Expr) :
    (unary op e).lower = e.lower ++ [.unary op] := lowerOnto_eq e _

@[simp] theorem lower_binary (op : BinaryOp) (l r : Expr) :
    (binary op l r).lower = l.lower ++ r.lower ++ [.binary op] := by
  rw [lower, lowerOnto, lowerOnto_eq, lowerOnto_eq, List.append_assoc]

end Expr

namespace Statement

/-- The instruction that uses a statement's value. -/
def last : Statement → Instruction
  | assign name _ => .store name
  | print _ => .print

/-- The code that performs a statement. -/
def lower (s : Statement) : Code := s.value.lowerOnto [s.last]

theorem lower_eq (s : Statement) : s.lower = s.value.lower ++ [s.last] :=
  s.value.lowerOnto_eq _

end Statement

namespace Program

/-- The code that performs a program. -/
def lower (p : Program) : Code := p.flatMap Statement.lower

/-- A program as lines of instruction text. -/
def compile (p : Program) : List String := p.lower.lines

@[simp] theorem lower_cons (a : Statement) (p : Program) :
    lower (a :: p) = a.lower ++ lower p := rfl

theorem lower_append (p q : Program) : lower (p ++ q) = lower p ++ lower q :=
  List.flatMap_append

end Program
end PolishCalc
