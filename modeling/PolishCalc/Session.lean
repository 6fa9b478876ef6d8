import PolishCalc.Outcome
import PolishCalc.Program

/-! # Running programs directly

A session is what running statements leaves: the bindings and the values printed.
A statement evaluates its expression before it changes anything, so one that
fails leaves the session as it was.  A program runs from an empty session, up to
the first statement that fails.
-/
namespace PolishCalc

/-- The bindings of variables and the values printed so far. -/
structure Session where
  bindings : Bindings := {}
  /-- The values printed, the oldest first. -/
  output : List Int32 := []
deriving DecidableEq, Repr

namespace Session

/-- Bind a name. -/
def bind (s : Session) (name : String) (v : Int32) : Session :=
  { s with bindings := s.bindings.set name v }

/-- Print a value. -/
def emit (s : Session) (v : Int32) : Session := { s with output := s.output ++ [v] }

/-- Use a value as a statement demands. -/
def accept (s : Session) : Statement → Int32 → Session
  | .assign name _, v => s.bind name v
  | .print _, v => s.emit v

/-- Perform one statement. -/
def perform (s : Session) (a : Statement) : Outcome Session :=
  Outcome.ofValue s (a.value.eval s.bindings) (s.accept a)

/-- Perform statements in order, up to the first that fails. -/
def performAll (s : Session) (p : Program) : Outcome Session := Outcome.run perform s p

/-- Forget what was bound and printed. -/
def clear (s : Session) : Session := { s with bindings := {}, output := [] }

/-- Run a program, forgetting what was bound and printed before. -/
def run (s : Session) (p : Program) : Outcome Session := s.clear.performAll p

/-- A run does not depend on the session that it clears. -/
theorem run_eq (s : Session) (p : Program) : s.run p = performAll {} p := rfl

/-- A program runs on from the session that the statements before it leave. -/
theorem performAll_append (s : Session) (front back : Program) :
    s.performAll (front ++ back) =
      (s.performAll front).andThen fun next => next.performAll back :=
  Outcome.run_append perform s front back

/-- **A statement that fails leaves no trace.** -/
theorem perform_state_of_fault {s : Session} {a : Statement} {f : Fault}
    (h : (s.perform a).fault = some f) : (s.perform a).state = s := by
  unfold perform at h ⊢
  cases hv : a.value.eval s.bindings with
  | ok v => rw [hv] at h; cases h
  | error g => rfl

end Session
end PolishCalc
