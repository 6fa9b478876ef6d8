import PolishCalc.Reader

/-! # Reading by descent

The leading token of a value decides how many operands follow, so a value can also be read
by a procedure that calls itself once for each operand: the first call takes the tokens of
the left operand, and the second goes on behind them.  Calls pass on nothing but the tokens
that are left.  Each of them takes at least one, which is why they come to an end
(`Taken.progress`).

The operators that wait for operands are those of the calls that have not returned yet;
`PolishCalc.Reader` keeps them in a list instead.  That both read the same programs, with the
same faults, is shown in `PolishCalc.Proofs.Descent`.
-/
namespace PolishCalc

/-- What was read from the front of `tokens`, and the tokens behind it. -/
structure Taken (α : Type) (tokens : List String) where
  value : α
  rest : List String
  /-- At least one token was taken. -/
  progress : rest.length < tokens.length

/-- Take the next token, which a statement that has begun needs. -/
def expectToken : (tokens : List String) → Except Fault (Taken String tokens)
  | [] => .error .prematureEnd
  | token :: rest => .ok ⟨token, rest, Nat.lt_succ_self rest.length⟩

/-- Take a value. -/
def Expr.descend (tokens : List String) : Except Fault (Taken Expr tokens) := do
  let head ← expectToken tokens
  match BinaryOp.ofSymbol? head.value with
  | some op =>
    let left ← descend head.rest
    let right ← descend left.rest
    return ⟨.binary op left.value right.value, right.rest,
      Nat.lt_trans (Nat.lt_trans right.progress left.progress) head.progress⟩
  | none =>
    match UnaryOp.ofSymbol? head.value with
    | some op =>
      let operand ← descend head.rest
      return ⟨.unary op operand.value, operand.rest, Nat.lt_trans operand.progress head.progress⟩
    | none =>
      match Expr.ofToken? head.value with
      | some e => return ⟨e, head.rest, head.progress⟩
      | none => throw (.illegalOperator head.value)
termination_by tokens.length
decreasing_by
  · exact head.progress
  · exact Nat.lt_trans left.progress head.progress
  · exact head.progress

/-- Take a statement. -/
def Statement.descend (tokens : List String) : Except Fault (Taken Statement tokens) := do
  let head ← expectToken tokens
  if head.value = assignToken then
    let name ← expectToken head.rest
    let value ← Expr.descend name.rest
    return ⟨.assign name.value value.value, value.rest,
      Nat.lt_trans (Nat.lt_trans value.progress name.progress) head.progress⟩
  else if head.value = printToken then
    let value ← Expr.descend head.rest
    return ⟨.print value.value, value.rest, Nat.lt_trans value.progress head.progress⟩
  else
    throw (.illegalAction head.value)

namespace Program

/-- Take statements until no token is left; `done` are those before them, the latest first. -/
def descendFrom (done : Program) (tokens : List String) : Except Fault Program :=
  if tokens = [] then .ok done.reverse
  else do
    let a ← Statement.descend tokens
    descendFrom (a.value :: done) a.rest
termination_by tokens.length
decreasing_by exact a.progress

/-- Take a program. -/
def descend (tokens : List String) : Except Fault Program := descendFrom [] tokens

end Program
end PolishCalc
