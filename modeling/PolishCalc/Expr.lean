import PolishCalc.Bindings
import PolishCalc.Operator

/-! # Expressions

An expression is a number, a variable, or an operator with its operands.  This
module gives it two readings: its value under bindings of its variables, and its
text in infix form.  A third, the stack machine's code, is in
`PolishCalc.Lowering`.
-/
namespace PolishCalc

/-- A tree that stands for a number. -/
inductive Expr where
  | const (value : Int32)
  | var (name : String)
  | unary (op : UnaryOp) (operand : Expr)
  | binary (op : BinaryOp) (left right : Expr)
deriving DecidableEq, Repr

namespace Expr

/-- The value of an expression.  Operands are evaluated from left to right, all of
them, so the leftmost fault is the one reported. -/
def eval (b : Bindings) : Expr → Except Fault Int32
  | const v => .ok v
  | var name => b.read name
  | unary op e => do
    let v ← e.eval b
    op.apply v
  | binary op l r => do
    let v ← l.eval b
    let w ← r.eval b
    op.apply v w

/-- The names of the variables that an expression reads, from left to right, a name
as often as it occurs. -/
def names : Expr → List String
  | const _ => []
  | var name => [name]
  | unary _ e => e.names
  | binary _ l r => l.names ++ r.names

/-! ## Infix text -/

/-- The infix text of an expression after `text`. -/
def writeOnto (text : String) : Expr → String
  | const v => text ++ Numeral.text v
  | var name => text ++ name
  | unary op e => e.writeOnto (text ++ op.symbol)
  | binary op l r =>
    r.writeOnto (l.writeOnto (text ++ "( ") ++ " " ++ op.symbol ++ " ") ++ " )"

/-- An expression in infix form.  A binary operator stands between its operands in
spaced parentheses of its own, a unary one directly before its operand. -/
def render (e : Expr) : String := e.writeOnto ""

theorem writeOnto_eq (e : Expr) (text : String) : e.writeOnto text = text ++ e.render := by
  induction e generalizing text with
  | const v => simp [render, writeOnto]
  | var name => simp [render, writeOnto]
  | unary op e ih =>
    rw [render, writeOnto, writeOnto, ih, ih ("" ++ op.symbol)]
    simp [String.append_assoc]
  | binary op l r ihl ihr =>
    rw [render, writeOnto, writeOnto, ihr, ihl, ihr (l.writeOnto ("" ++ "( ") ++ _ ++ _ ++ _), ihl]
    simp [String.append_assoc]

@[simp] theorem render_const (v : Int32) : (const v).render = Numeral.text v := by
  simp [render, writeOnto]

@[simp] theorem render_var (name : String) : (var name).render = name := by
  simp [render, writeOnto]

@[simp] theorem render_unary (op : UnaryOp) (e : Expr) :
    (unary op e).render = op.symbol ++ e.render := by
  rw [render, writeOnto, writeOnto_eq, String.empty_append]

@[simp] theorem render_binary (op : BinaryOp) (l r : Expr) :
    (binary op l r).render =
      "( " ++ l.render ++ " " ++ op.symbol ++ " " ++ r.render ++ " )" := by
  rw [render, writeOnto, writeOnto_eq, writeOnto_eq, String.empty_append]

end Expr
end PolishCalc
