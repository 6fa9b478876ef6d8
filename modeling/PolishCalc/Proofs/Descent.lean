import PolishCalc.Descent

/-! # The reader reads by descent

A call that takes an operand returns to the operator that needs it, and the reader delivers the
operand to the frame of that operator.  So what a value is for makes no difference to the tokens
that are taken for it: from any frames, reading takes one value by descent and goes on with the
reader to which this value was delivered (`Reader.readAll_value`).  For an operator this is used
twice, first with the operator itself as the innermost frame, and then behind the left operand
with that operand in the frame.

Statements are taken one by one in both ways, so tokens are the same program, or have the same
fault, whichever way they are read (`Program.descend_eq_ofTokens`).
-/
namespace PolishCalc

namespace Reader

/-- The program that is read from here on. -/
def readAll (r : Reader) (tokens : List String) : Except Fault Program :=
  r.feedAll tokens >>= finish

theorem readAll_cons (r : Reader) (token : String) (rest : List String) :
    r.readAll (token :: rest) = r.feed token >>= fun next => next.readAll rest := by
  rw [readAll, feedAll_cons]
  cases r.feed token <;> rfl

/-- **Reading takes a value by descent,** and goes on from where the value is delivered. -/
theorem readAll_value (done : Program) (goal : Goal) (frames : List Frame)
    (tokens : List String) :
    readAll ⟨done, .value goal frames⟩ tokens =
      Expr.descend tokens >>= fun e => (deliver done goal e.value frames).readAll e.rest := by
  -- By recursion on the tokens that are left, as in the descent itself; the frames are general,
  -- since each operand is read with its operator in front of them.
  cases tokens with
  | nil =>
    rw [Expr.descend]
    rfl
  | cons token rest =>
    rw [readAll_cons, feed_value, feedValue, Expr.descend, expectToken, ok_bind]
    dsimp only
    cases BinaryOp.ofSymbol? token with
    | some op =>
      dsimp only
      rw [ok_bind, readAll_value done goal (.left op :: frames) rest]
      cases Expr.descend rest with
      | error f => rfl
      | ok left =>
        rw [ok_bind, ok_bind]
        show readAll ⟨done, .value goal (.right op left.value :: frames)⟩ left.rest = _
        rw [readAll_value done goal (.right op left.value :: frames) left.rest]
        cases Expr.descend left.rest <;> rfl
    | none =>
      cases UnaryOp.ofSymbol? token with
      | some op =>
        dsimp only
        rw [ok_bind, readAll_value done goal (.unary op :: frames) rest]
        cases Expr.descend rest <;> rfl
      | none => cases Expr.ofToken? token <;> rfl
termination_by tokens.length
decreasing_by
  · exact Nat.lt_succ_self rest.length
  · exact Nat.lt_succ_self rest.length
  · exact Nat.lt_trans left.progress (Nat.lt_succ_self rest.length)

/-- **Reading takes a statement by descent,** and goes on between two statements. -/
theorem readAll_statement (done : Program) {tokens : List String} (h : tokens ≠ []) :
    readAll ⟨done, .statement⟩ tokens =
      Statement.descend tokens >>= fun a => readAll ⟨a.value :: done, .statement⟩ a.rest := by
  obtain ⟨token, rest, rfl⟩ := List.exists_cons_of_ne_nil h
  rw [readAll_cons, feed_statement, feedStatement, Statement.descend, expectToken, ok_bind]
  dsimp only
  split
  · -- The name is any token, but there has to be one.
    cases rest with
    | nil => rfl
    | cons name rest =>
      rw [ok_bind, readAll_cons, feed_name, ok_bind, readAll_value, expectToken, ok_bind]
      cases Expr.descend rest <;> rfl
  · split
    · rw [ok_bind, readAll_value]
      cases Expr.descend rest <;> rfl
    · rfl

end Reader

/-- From between two statements on, both ways of reading come to the same. -/
theorem Program.descendFrom_eq (done : Program) (tokens : List String) :
    descendFrom done tokens = Reader.readAll ⟨done, .statement⟩ tokens := by
  rw [descendFrom]
  split
  · rename_i h
    rw [h]
    rfl
  · rename_i h
    rw [Reader.readAll_statement done h]
    cases Statement.descend tokens with
    | error f => rfl
    | ok a => exact descendFrom_eq (a.value :: done) a.rest
termination_by tokens.length
decreasing_by exact a.progress

/-- **Tokens are read by descent as they are read one at a time,** fault included. -/
theorem Program.descend_eq_ofTokens (tokens : List String) : descend tokens = ofTokens tokens :=
  descendFrom_eq [] tokens

end PolishCalc
