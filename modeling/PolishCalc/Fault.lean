/-! # Faults

Reading, running and executing a program can each stop for one of eight causes.
A fault is that cause together with the text it is about; the wording that a
reader of the output sees is in `Fault.message` and `Fault.detail?`, and nothing
else in the library looks at it.
-/
namespace PolishCalc

/-- Why a stage of the calculator stopped. -/
inductive Fault where
  /-- The divisor of a quotient or of a remainder is zero. -/
  | divideByZero
  /-- The operand of a square root is below zero. -/
  | negativeSquareRoot
  /-- The tokens ended inside a statement. -/
  | prematureEnd
  /-- A statement starts with `token`, which begins no statement. -/
  | illegalAction (token : String)
  /-- `text` is not an instruction of the stack machine. -/
  | illegalInstruction (text : String)
  /-- `token` stands where a value is due, and begins none. -/
  | illegalOperator (token : String)
  /-- The variable `name` is read before it is bound. -/
  | uninitialized (name : String)
  /-- An instruction needs a value and the stack is empty. -/
  | emptyStack
deriving DecidableEq, Repr

namespace Fault

/-- What lies behind a fault, for the one that is reported as a mistake of the
machine's own: compiled code never finds the stack empty. -/
def detail? : Fault → Option String
  | emptyStack => some "popped from an empty stack"
  | _ => none

/-- The line that reports a fault. -/
def message : Fault → String
  | divideByZero => "divide by zero"
  | negativeSquareRoot => "square root of negative number"
  | prematureEnd => "premature end of statement"
  | illegalAction token => "illegal action encountered in source: " ++ token
  | illegalInstruction text => "illegal instruction: " ++ text
  | illegalOperator token => "illegal operator in expression: " ++ token
  | uninitialized name => "uninitialized variable: " ++ name
  | emptyStack => "machine internal error: popped from an empty stack"

end Fault

/-! ## Computations that may fault

A computation in two stages has a value when both stages have one, and otherwise
the fault of the first stage that has none. -/

section Stages

variable {α β : Type} {first : Except Fault α} {next : α → Except Fault β}

@[simp] theorem ok_bind (a : α) : (Except.ok a : Except Fault α) >>= next = next a := rfl

@[simp] theorem error_bind (f : Fault) :
    (Except.error f : Except Fault α) >>= next = .error f := rfl

theorem bind_eq_ok_iff {b : β} :
    first >>= next = .ok b ↔ ∃ a, first = .ok a ∧ next a = .ok b := by
  cases first with
  | ok a => exact ⟨fun h => ⟨a, rfl, h⟩, fun ⟨_, ha, h⟩ => Except.ok.inj ha ▸ h⟩
  | error f => exact ⟨nofun, fun ⟨_, ha, _⟩ => nomatch ha⟩

theorem bind_eq_error_iff {f : Fault} :
    first >>= next = .error f ↔
      first = .error f ∨ ∃ a, first = .ok a ∧ next a = .error f := by
  cases first with
  | ok a =>
    refine ⟨fun h => .inr ⟨a, rfl, h⟩, ?_⟩
    rintro (ha | ⟨_, ha, h⟩)
    · cases ha
    · exact Except.ok.inj ha ▸ h
  | error g =>
    refine ⟨fun h => .inl (congrArg Except.error (Except.error.inj h)), ?_⟩
    rintro (hg | ⟨_, ha, _⟩)
    · exact congrArg Except.error (Except.error.inj hg)
    · cases ha

theorem map_eq_ok_iff {value : Except Fault α} {g : α → β} {b : β} :
    value.map g = .ok b ↔ ∃ a, value = .ok a ∧ g a = b := by
  cases value with
  | ok a =>
    exact ⟨fun h => ⟨a, rfl, Except.ok.inj h⟩,
      fun ⟨_, ha, h⟩ => congrArg Except.ok (Except.ok.inj ha ▸ h)⟩
  | error f => exact ⟨nofun, fun ⟨_, ha, _⟩ => nomatch ha⟩

theorem map_eq_error_iff {value : Except Fault α} {g : α → β} {f : Fault} :
    value.map g = .error f ↔ value = .error f := by
  cases value with
  | ok a => exact ⟨nofun, nofun⟩
  | error e =>
    exact ⟨fun h => congrArg Except.error (Except.error.inj h),
      fun h => congrArg Except.error (Except.error.inj h)⟩

end Stages
end PolishCalc
