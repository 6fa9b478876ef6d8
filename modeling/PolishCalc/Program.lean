import PolishCalc.Expr

/-! # Statements and programs

A statement binds a name to the value of an expression or prints the value, and
a program is a list of statements.  The names of a program are those it assigns
and those it reads, in the order in which they are written.
-/
namespace PolishCalc

open Text (joinLines)

/-- One step of a program. -/
inductive Statement where
  /-- Bind `name` to the value of an expression. -/
  | assign (name : String) (value : Expr)
  /-- Print the value of an expression. -/
  | print (value : Expr)
deriving DecidableEq, Repr

namespace Statement

/-- The expression whose value the statement uses. -/
def value : Statement → Expr
  | assign _ e => e
  | print e => e

/-- The name that the statement binds, if it binds one. -/
def target? : Statement → Option String
  | assign name _ => some name
  | print _ => none

/-- The names in a statement. -/
def names (s : Statement) : List String := s.target?.toList ++ s.value.names

/-- A statement with its expression in infix form. -/
def render : Statement → String
  | assign name e => name ++ " = " ++ e.render
  | print e => "Print " ++ e.render

end Statement

/-- Statements in the order in which they are performed. -/
abbrev Program := List Statement

namespace Program

/-- The names in a program. -/
def names (p : Program) : List String := p.flatMap Statement.names

@[simp] theorem names_cons (a : Statement) (p : Program) :
    names (a :: p) = a.names ++ names p := rfl

/-- A program in infix form, a line for each statement. -/
def render (p : Program) : String := joinLines (p.map Statement.render)

end Program
end PolishCalc
