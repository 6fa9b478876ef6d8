import PolishCalc.Program
import PolishCalc.Text.Words

/-! # Reading programs

Source text is in prefix form: `= name value` and `@ value`, where a value is a
number, a variable, or an operator followed by its operands.  The leading token
of a value decides how many operands follow, so a program can be read one token
at a time, and reading is a machine with a transition for each token: the state
holds the statements read so far and what is awaited next.  Inside a value the
operators still short of operands wait in `frames`, innermost first, and a value
that is complete is delivered to the innermost of them.

A token is refused by the state it meets and by nothing after it.  That is what
places every fault: tokens after the offending one are never looked at.  The same
programs are read by recursive procedures in `PolishCalc.Descent`.
-/
namespace PolishCalc

/-- The token that starts an assignment. -/
def assignToken : String := "="

/-- The token that starts a print statement. -/
def printToken : String := "@"

/-- The first character of `s` is an ASCII letter. -/
def startsWithLetter (s : String) : Bool := s.toList.head?.any Char.isAlpha

/-- The value that is a single token: a variable if the token starts with a
letter, and otherwise the number it writes. -/
def Expr.ofToken? (token : String) : Option Expr :=
  if startsWithLetter token then some (.var token) else (Numeral.value? token).map .const

/-- An operator that awaits its next operand. -/
inductive Frame where
  /-- A unary operator without its operand. -/
  | unary (op : UnaryOp)
  /-- A binary operator without operands. -/
  | left (op : BinaryOp)
  /-- A binary operator that has its left operand. -/
  | right (op : BinaryOp) (left : Expr)
deriving DecidableEq, Repr

/-- What the value that is being read is for. -/
inductive Goal where
  | assign (name : String)
  | print
deriving DecidableEq, Repr

/-- The statement that a value completes. -/
def Goal.complete : Goal → Expr → Statement
  | assign name, e => .assign name e
  | print, e => .print e

/-- What the next token has to be. -/
inductive Awaited where
  /-- The start of a statement. -/
  | statement
  /-- The name that an assignment binds. -/
  | name
  /-- The start of a value, for the innermost of `frames` or, without one, for the
  statement itself. -/
  | value (goal : Goal) (frames : List Frame)
deriving DecidableEq, Repr

/-- The state of reading between two tokens. -/
structure Reader where
  /-- The statements that are complete, the latest first. -/
  done : Program := []
  /-- What comes next. -/
  awaited : Awaited := .statement
deriving DecidableEq, Repr

namespace Reader

/-- Deliver a complete value to the innermost frame.  Operators that it completes
are values in turn. -/
def deliver (done : Program) (goal : Goal) : Expr → List Frame → Reader
  | e, [] => ⟨goal.complete e :: done, .statement⟩
  | e, .unary op :: frames => deliver done goal (.unary op e) frames
  | e, .left op :: frames => ⟨done, .value goal (.right op e :: frames)⟩
  | e, .right op l :: frames => deliver done goal (.binary op l e) frames

/-- Read a token where a statement starts. -/
def feedStatement (done : Program) (token : String) : Except Fault Reader :=
  if token = assignToken then .ok ⟨done, .name⟩
  else if token = printToken then .ok ⟨done, .value .print []⟩
  else .error (.illegalAction token)

/-- Read a token where a value starts.  Operator symbols come first: none of them
is also a variable or a number. -/
def feedValue (done : Program) (goal : Goal) (frames : List Frame) (token : String) :
    Except Fault Reader :=
  match BinaryOp.ofSymbol? token with
  | some op => .ok ⟨done, .value goal (.left op :: frames)⟩
  | none =>
    match UnaryOp.ofSymbol? token with
    | some op => .ok ⟨done, .value goal (.unary op :: frames)⟩
    | none =>
      match Expr.ofToken? token with
      | some e => .ok (deliver done goal e frames)
      | none => .error (.illegalOperator token)

/-- Read one token.  The name of an assignment is any token at all. -/
def feed (r : Reader) (token : String) : Except Fault Reader :=
  match r.awaited with
  | .statement => feedStatement r.done token
  | .name => .ok ⟨r.done, .value (.assign token) []⟩
  | .value goal frames => feedValue r.done goal frames token

/-- Read tokens in order, up to the first that is refused. -/
def feedAll (r : Reader) (tokens : List String) : Except Fault Reader := tokens.foldlM feed r

/-- The program that was read, if the tokens end between two statements. -/
def finish (r : Reader) : Except Fault Program :=
  match r.awaited with
  | .statement => .ok r.done.reverse
  | _ => .error .prematureEnd

@[simp] theorem feed_statement (done : Program) (token : String) :
    feed ⟨done, .statement⟩ token = feedStatement done token := rfl

@[simp] theorem feed_name (done : Program) (token : String) :
    feed ⟨done, .name⟩ token = .ok ⟨done, .value (.assign token) []⟩ := rfl

@[simp] theorem feed_value (done : Program) (goal : Goal) (frames : List Frame) (token : String) :
    feed ⟨done, .value goal frames⟩ token = feedValue done goal frames token := rfl

@[simp] theorem feedAll_nil (r : Reader) : r.feedAll [] = .ok r := rfl

theorem feedAll_cons (r : Reader) (token : String) (rest : List String) :
    r.feedAll (token :: rest) = r.feed token >>= fun next => next.feedAll rest := rfl

/-- Reading goes on from where it stands, whatever was read before. -/
theorem feedAll_append (r : Reader) (front back : List String) :
    r.feedAll (front ++ back) = r.feedAll front >>= fun next => next.feedAll back :=
  List.foldlM_append

/-- Reading in two parts. -/
theorem feedAll_append_of_ok {r r' : Reader} {front : List String} (h : r.feedAll front = .ok r')
    (back : List String) : r.feedAll (front ++ back) = r'.feedAll back := by
  rw [feedAll_append, h]
  rfl

end Reader

namespace Program

/-- The program that tokens spell. -/
def ofTokens (tokens : List String) : Except Fault Program := do
  let r ← Reader.feedAll {} tokens
  r.finish

/-- The program that a text spells, its words being the tokens. -/
def ofSource (source : String) : Except Fault Program := ofTokens (Text.words source)

end Program
end PolishCalc
