import PolishCalc.Proofs.FirstFault
import PolishCalc.Proofs.InstructionEffect
import PolishCalc.Proofs.StoppingPlace

/-! # What lies below on the stack

An instruction looks at its operands and at nothing below them.  If it finds all of them, then
it does the same on a higher stack: the same computation on the same operands, with the same
fault if there is one, and what lies below stays there (`Memory.exec_onto`).  Code that is run
from one stack therefore does the same with other values put underneath, whether it comes to
its end or fails (`Memory.execAll_onto`).

The one thing that more values below can change is whether there are enough.  And they do
change it: under a run that finds the stack empty one can always put so many values that it
does not (`Memory.execAll_ne_emptyStack`).  So a run is independent of what lies below exactly
if it does not underflow.
-/
namespace PolishCalc

namespace Memory

/-- The same memory with `below` put underneath its stack. -/
def onto (m : Memory) (below : Stack) : Memory := m.withStack (m.stack ++ below)

variable {m : Memory} {i : Instruction} {c : Code}

@[simp] theorem onto_stack (m : Memory) (below : Stack) :
    (m.onto below).stack = m.stack ++ below := rfl

@[simp] theorem onto_toSession (m : Memory) (below : Stack) :
    (m.onto below).toSession = m.toSession := rfl

/-- **An instruction that finds its operands does the same on a higher stack.** -/
theorem exec_onto (h : (m.exec i).fault ≠ some .emptyStack) (below : Stack) :
    (m.onto below).exec i = (m.exec i).map (·.onto below) := by
  have enough := needs_le_of_ne_emptyStack h
  have htake : (m.stack ++ below).take i.needs = m.stack.take i.needs :=
    List.take_append_of_le_length enough
  have hdrop : (m.stack ++ below).drop i.needs = m.stack.drop i.needs ++ below :=
    List.drop_append_of_le_length enough
  rw [exec_eq, exec_eq, onto_stack, onto_toSession, htake, hdrop]
  cases i.compute m.toSession (m.stack.take i.needs) with
  | error f => rfl
  | ok result =>
    obtain ⟨s, pushed⟩ := result
    show Outcome.mk (((m.onto below).withSession s).withStack (pushed ++ (_ ++ below))) none = _
    rw [← List.append_assoc]
    rfl

/-- **Code that does not underflow does the same on a higher stack.** -/
theorem execAll_onto (h : (m.execAll c).fault ≠ some .emptyStack) (below : Stack) :
    (m.onto below).execAll c = (m.execAll c).map (·.onto below) := by
  induction c generalizing m with
  | nil => rfl
  | cons i rest ih =>
    have hstep : (m.exec i).fault ≠ some .emptyStack := by
      intro hempty
      rw [execAll, Outcome.run_cons_of_fault hempty] at h
      exact h hempty
    rw [execAll_cons] at h
    rw [execAll_cons, execAll_cons, exec_onto hstep]
    rcases hexec : m.exec i with ⟨next, _ | f⟩
    · rw [hexec] at h
      exact ih h
    · rfl

/-- The faults of code on any memory. -/
theorem execAll_fault_cases {f : Fault} (h : (m.execAll c).fault = some f) :
    f = .emptyStack ∨ f = .divideByZero ∨ f = .negativeSquareRoot ∨
      ∃ name, f = .uninitialized name := by
  have hfault : (Outcome.run exec m c).fault = some f := h
  obtain ⟨k, i, before, hstops⟩ := Outcome.exists_stopsAt hfault
  exact exec_fault_cases hstops.fails

/-! ## Enough values below -/

/-- **Code does not underflow on a stack that holds more values than there are instructions.** -/
theorem execAll_ne_emptyStack (h : c.length < m.stack.length) :
    (m.execAll c).fault ≠ some .emptyStack := by
  induction c generalizing m with
  | nil => exact nofun
  | cons i rest ih =>
    have hneeds := i.needs_le_two
    have hchange := i.neg_one_le_change
    rw [List.length_cons] at h
    have enough : i.needs ≤ m.stack.length := by omega
    rw [execAll_cons]
    rcases hexec : m.exec i with ⟨next, _ | f⟩
    · obtain ⟨hlength, -⟩ := exec_ok hexec
      rw [Outcome.andThen_none]
      exact ih (by omega)
    · rw [Outcome.andThen_some]
      intro hf
      rcases exec_fault enough (congrArg Outcome.fault hexec |>.trans hf) with
        hf | hf | ⟨_, -, hf, -⟩ <;> cases hf

end Memory

/-- The same machine with `below` put underneath its stack. -/
def Machine.onto (m : Machine) (below : Stack) : Machine :=
  m.withMemory (m.toMemory.onto below)

/-- **Stepping leaves alone what lies below on the stack.**  Instructions are stepped in order,
up to the first that fails.  This does not underflow exactly if it is independent of what lies
below: with any values put underneath the stack, it ends with the same fault, if any, with the
same bindings and the same output, and with the same stack and these values underneath.  The
faults other than that of an empty stack are those of arithmetic and of a name without a
value. -/
theorem stepping_leaves_stack_below_alone (m : Machine) (c : Code) :
    let ran := m.stepAll c
    (ran.fault ≠ some .emptyStack ↔
      ran.fault = none ∨ ran.fault = some .divideByZero ∨
        ran.fault = some .negativeSquareRoot ∨ ∃ name, ran.fault = some (.uninitialized name)) ∧
    (ran.fault ≠ some .emptyStack ↔
      ∀ below : Stack,
        let other := (m.onto below).stepAll c
        other.fault = ran.fault ∧ other.state.bindings = ran.state.bindings ∧
          other.state.output = ran.state.output ∧
          other.state.stack = ran.state.stack ++ below) := by
  intro ran
  have hran : ran = (m.toMemory.execAll c).map m.withMemory := m.stepAll_eq c
  have hother (below : Stack) : (m.onto below).stepAll c =
      ((m.toMemory.onto below).execAll c).map m.withMemory := (m.onto below).stepAll_eq c
  refine ⟨⟨?_, ?_⟩, ⟨?_, ?_⟩⟩
  · intro h
    cases hfault : ran.fault with
    | none => exact .inl rfl
    | some f =>
      rw [hran] at hfault
      rcases Memory.execAll_fault_cases hfault with rfl | rfl | rfl | ⟨name, rfl⟩
      · exact absurd (by rw [hran]; exact hfault) h
      · exact .inr (.inl rfl)
      · exact .inr (.inr (.inl rfl))
      · exact .inr (.inr (.inr ⟨name, rfl⟩))
  · rintro (h | h | h | ⟨name, h⟩) <;> rw [h] <;> exact nofun
  · intro h below other
    rw [hran] at h
    have heq : other = ((m.toMemory.execAll c).map (·.onto below)).map m.withMemory := by
      rw [← Memory.execAll_onto h]
      exact hother below
    rw [heq, hran]
    exact ⟨rfl, rfl, rfl, rfl⟩
  · intro h hempty
    -- With more values below than there are instructions, the run does not underflow.
    obtain ⟨hfault, -⟩ := h (List.replicate (c.length + 1) 0)
    rw [hempty, hother] at hfault
    refine Memory.execAll_ne_emptyStack ?_ hfault
    rw [Memory.onto_stack, List.length_append, List.length_replicate]
    omega

/-- A quotient by zero behind a store, with values underneath; and an addition that finds one
operand, so that a value underneath makes it succeed. -/
theorem stepping_leaves_stack_below_alone_of_examples :
    let m : Machine := ⟨⟨⟨⟨[("x", 3)]⟩, [8]⟩, [5]⟩, [.print]⟩
    let divided : Code := [.store "y", .push 1, .push 7, .push 0, .binary .div, .print]
    let short : Code := [.binary .add]
    (m.stepAll divided).fault = some .divideByZero ∧
      ((m.onto [10, 20]).stepAll divided).fault = some .divideByZero ∧
      ((m.onto [10, 20]).stepAll divided).state.bindings = ⟨[("x", 3), ("y", 5)]⟩ ∧
      ((m.onto [10, 20]).stepAll divided).state.stack = [1, 10, 20] ∧
      (m.stepAll short).fault = some .emptyStack ∧
      ((m.onto [10]).stepAll short).fault = none := by
  intro m divided short
  obtain ⟨-, hframe⟩ := stepping_leaves_stack_below_alone m divided
  have hdivided : (m.stepAll divided).fault = some .divideByZero := by decide
  have hother := hframe.mp (by rw [hdivided]; exact nofun) [10, 20]
  obtain ⟨hfault, hbindings, -, hstack⟩ := hother
  exact ⟨hdivided, hfault.trans hdivided, hbindings, hstack, rfl, rfl⟩

end PolishCalc
