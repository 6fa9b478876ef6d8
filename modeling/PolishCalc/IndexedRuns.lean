import PolishCalc.IndexedBindings
import PolishCalc.Machine

/-! # Runs on bindings with an index

What a program or code does with its bindings is to read a name and to bind one.  Here both
go through the index of a store, in a session and in a machine that are otherwise as they
are.  If at any step the index leads beyond the last slot, there is no value and no next
state, and so the whole run has no result.
-/
namespace PolishCalc

/-- The value of `name`, or the fault of reading a variable that has none. -/
def IndexedBindings.read (b : IndexedBindings) (name : String) : ExceptT Fault Option Int32 :=
  ExceptT.mk <| (b.get? name).map fun
    | some v => .ok v
    | none => .error (.uninitialized name)

/-- The value of an expression whose variables are read through the index. -/
def Expr.evalIndexed (b : IndexedBindings) : Expr → ExceptT Fault Option Int32
  | const v => pure v
  | var name => b.read name
  | unary op e => do
    let v ← e.evalIndexed b
    liftExcept (op.apply v)
  | binary op l r => do
    let v ← l.evalIndexed b
    let w ← r.evalIndexed b
    liftExcept (op.apply v w)

/-- Take the steps of a list in order and stop at the first that fails, or that has no result. -/
def Outcome.run? {σ α : Type} (step : σ → α → Option (Outcome σ)) :
    σ → List α → Option (Outcome σ)
  | s, [] => some ⟨s, none⟩
  | s, a :: rest =>
    match step s a with
    | none => none
    | some ⟨next, none⟩ => run? step next rest
    | some ⟨next, some f⟩ => some ⟨next, some f⟩

/-! ## Programs -/

/-- Bindings with an index, and the values printed so far. -/
structure IndexedSession where
  bindings : IndexedBindings := {}
  /-- The values printed, the oldest first. -/
  output : List Int32 := []
deriving DecidableEq, Repr

namespace IndexedSession

/-- The session without the index. -/
def toSession (s : IndexedSession) : Session := ⟨s.bindings.toBindings, s.output⟩

/-- Bind a name. -/
def bind (s : IndexedSession) (name : String) (v : Int32) : Option IndexedSession :=
  (s.bindings.set name v).map fun b => { s with bindings := b }

/-- Print a value. -/
def emit (s : IndexedSession) (v : Int32) : IndexedSession := { s with output := s.output ++ [v] }

/-- Use a value as a statement demands. -/
def accept (s : IndexedSession) : Statement → Int32 → Option IndexedSession
  | .assign name _, v => s.bind name v
  | .print _, v => some (s.emit v)

/-- Perform one statement. -/
def perform (s : IndexedSession) (a : Statement) : Option (Outcome IndexedSession) :=
  match (a.value.evalIndexed s.bindings).run with
  | none => none
  | some (.ok v) => (s.accept a v).map fun next => ⟨next, none⟩
  | some (.error f) => some ⟨s, some f⟩

/-- Forget what was bound and printed. -/
def clear (s : IndexedSession) : IndexedSession := { s with bindings := {}, output := [] }

/-- Run a program, forgetting what was bound and printed before. -/
def run (s : IndexedSession) (p : Program) : Option (Outcome IndexedSession) :=
  Outcome.run? perform s.clear p

end IndexedSession

/-! ## Code -/

/-- Code, and what it works on, the bindings with an index. -/
structure IndexedMachine extends IndexedSession where
  stack : Stack := []
  code : Code := []
deriving DecidableEq, Repr

namespace IndexedMachine

/-- The machine without the index. -/
def toMachine (m : IndexedMachine) : Machine := ⟨⟨m.toSession, m.stack⟩, m.code⟩

/-- The same machine with another stack. -/
def withStack (m : IndexedMachine) (s : Stack) : IndexedMachine := { m with stack := s }

/-- Take the top value off the stack and use it. -/
def consume (m : IndexedMachine) (use : IndexedSession → Int32 → Option IndexedSession) :
    Option (Outcome IndexedMachine) :=
  match m.stack.pop with
  | .error f => some ⟨m, some f⟩
  | .ok (v, rest) =>
    (use m.toIndexedSession v).map fun s =>
      ⟨{ m.withStack rest with toIndexedSession := s }, none⟩

/-- Execute one instruction. -/
def step (m : IndexedMachine) : Instruction → Option (Outcome IndexedMachine)
  | .push v => some ⟨m.withStack (v :: m.stack), none⟩
  | .store name => m.consume fun s v => s.bind name v
  | .load name =>
    (m.bindings.read name).run.map fun value =>
      Outcome.ofValue m value fun v => m.withStack (v :: m.stack)
  | .print => m.consume fun s v => some (s.emit v)
  | .unary op => some ((m.stack.applyUnary op).map m.withStack)
  | .binary op => some ((m.stack.applyBinary op).map m.withStack)

/-- Empty the stack and the output, and forget the bindings. -/
def clear (m : IndexedMachine) : IndexedMachine :=
  { m with stack := [], bindings := {}, output := [] }

/-- Execute the machine's code on cleared bindings, stack and output. -/
def execute (m : IndexedMachine) : Option (Outcome IndexedMachine) :=
  let taken : IndexedMachine := { m.clear with code := [] }
  (Outcome.run? step taken m.code).map fun ran => ran.map fun left => { left with code := m.code }

end IndexedMachine
end PolishCalc
