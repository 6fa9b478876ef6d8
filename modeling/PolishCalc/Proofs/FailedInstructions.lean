import Mathlib.Logic.ExistsUnique
import PolishCalc.Proofs.FirstFault
import PolishCalc.Proofs.InstructionEffect

/-! # What a failed instruction leaves

Unlike a statement, an instruction does leave a trace when it fails.  It takes its operands off
the stack one by one before it can tell that there are too few of them, that a divisor is zero
or that a root has no value, and they do not come back (`Memory.exec_state_of_fault`).  All else
stays: code, bindings and output; and a load that finds no value has taken nothing.

Executing code up to the first instruction that fails therefore leaves what the instructions
before that one leave, less its operands.  A new machine that holds only these instructions
shows this state, because executing starts anew.
-/
namespace PolishCalc

variable {code : Code} {k : Nat} {i : Instruction} {before : Machine} {f : Fault}

/-- A number of values that are to be dropped can be cut to those that there are. -/
theorem Stack.drop_min (s : Stack) (n : Nat) : s.drop (min s.length n) = s.drop n :=
  List.drop_eq_drop_iff.mpr (by omega)

namespace Machine

/-- A step that fails has lost its operands and has changed nothing else. -/
theorem step_state_of_fault {m : Machine} (h : (m.step i).fault = some f) :
    (m.step i).state =
      m.withMemory (m.toMemory.withStack (m.stack.drop (min m.stack.length i.needs))) := by
  rw [Stack.drop_min]
  exact congrArg m.withMemory (Memory.exec_state_of_fault h)

/-- What a new machine shows when it has executed code. -/
theorem execute_eq_ok_iff {m : Machine} :
    Machine.execute { code := code } = ⟨m, none⟩ ↔
      m.code = code ∧ Memory.execAll {} code = ⟨m.toMemory, none⟩ := by
  obtain ⟨memory, own⟩ := m
  rcases hrun : Memory.execAll {} code with ⟨state, fault⟩
  have hexecute : Machine.execute { code := code } = ⟨⟨state, code⟩, fault⟩ := by
    rw [execute_eq_execAll, hrun]
    rfl
  rw [hexecute]
  constructor
  · rintro ⟨⟩
    exact ⟨rfl, rfl⟩
  · rintro ⟨rfl, ⟨⟩⟩
    rfl

end Machine

namespace Code

/-- Code stops at index `k`: a new machine that holds only the first `k` instructions executes
them and is then the machine `before`, on which the instruction behind them, `i`, fails. -/
def StopsAt (code : Code) (k : Nat) (i : Instruction) (before : Machine) (f : Fault) : Prop :=
  code[k]? = some i ∧ Machine.execute { code := code.take k } = ⟨before, none⟩ ∧
    (before.step i).fault = some f

/-- To stop is a matter of memory, where code is run. -/
theorem stopsAt_iff :
    code.StopsAt k i before f ↔
      before.code = code.take k ∧ Outcome.StopsAt Memory.exec {} code k i before.toMemory f := by
  constructor
  · rintro ⟨here, executed, fails⟩
    obtain ⟨hcode, reached⟩ := Machine.execute_eq_ok_iff.mp executed
    exact ⟨hcode, here, reached, fails⟩
  · rintro ⟨hcode, here, reached, fails⟩
    exact ⟨here, Machine.execute_eq_ok_iff.mpr ⟨hcode, reached⟩, fails⟩

/-- **Code that fails stops somewhere.** -/
theorem exists_stopsAt_of_execAll (h : (Memory.execAll {} code).fault = some f) :
    ∃ k i before, code.StopsAt k i before f := by
  have hfault : (Outcome.run Memory.exec {} code).fault = some f := h
  obtain ⟨k, i, t, hstops⟩ := Outcome.exists_stopsAt hfault
  exact ⟨k, i, ⟨t, code.take k⟩, stopsAt_iff.mpr ⟨rfl, hstops⟩⟩

/-- **Executing code that stops** is a step of the instruction that fails, on the machine that
those before it leave; what is behind it has no influence. -/
theorem StopsAt.execAll_append (h : code.StopsAt k i before f) (back : Code) :
    Memory.execAll {} (code.take (k + 1) ++ back) = before.toMemory.exec i :=
  (stopsAt_iff.mp h).2.run_append back

theorem StopsAt.execAll_eq (h : code.StopsAt k i before f) :
    Memory.execAll {} code = before.toMemory.exec i :=
  (stopsAt_iff.mp h).2.run_eq

end Code

/-- **A failed instruction takes its operands and nothing else.**  If a step fails, code,
bindings and output are as they were, and the stack has lost as many values as the instruction
needs, or all if there are fewer.  So if executing fails, there is exactly one index at which
the code stops: output and bindings are those that the instructions before it leave on a new
machine, the stack is theirs without the operands of the one that failed, and the instructions
behind that one can be any. -/
theorem failed_instruction_takes_operands :
    (∀ (m : Machine) (i : Instruction) (f : Fault), (m.step i).fault = some f →
      let left := (m.step i).state
      left.code = m.code ∧ left.bindings = m.bindings ∧ left.output = m.output ∧
        left.stack = m.stack.drop (min m.stack.length i.needs)) ∧
    (∀ (m : Machine) (f : Fault), m.execute.fault = some f →
      let left := m.execute.state
      (∃! k, ∃ i before, m.code.StopsAt k i before f) ∧
      ∀ k i before, m.code.StopsAt k i before f →
        left.output = before.output ∧ left.bindings = before.bindings ∧
        left.stack = before.stack.drop (min before.stack.length i.needs) ∧
        ∀ back : Code,
          let other := Machine.execute { code := m.code.take (k + 1) ++ back }
          other.fault = some f ∧ other.state.toMemory = left.toMemory) := by
  refine ⟨?_, ?_⟩
  · intro m i f hfault left
    have hleft : left = _ := Machine.step_state_of_fault hfault
    rw [hleft]
    exact ⟨rfl, rfl, rfl, rfl⟩
  · intro m f hfault left
    have hrun : (Memory.execAll {} m.code).fault = some f := m.execute_fault ▸ hfault
    have hleft : left.toMemory = (Memory.execAll {} m.code).state := m.execute_toMemory
    refine ⟨?_, ?_⟩
    · obtain ⟨k, hstops⟩ := Code.exists_stopsAt_of_execAll hrun
      refine ⟨k, hstops, ?_⟩
      rintro j ⟨i', before', hstops'⟩
      obtain ⟨i, before, hstops⟩ := hstops
      exact (Code.stopsAt_iff.mp hstops).2.unique (Code.stopsAt_iff.mp hstops').2
    · intro k i before hstops
      have hmemory : left.toMemory = (before.step i).state.toMemory :=
        hleft.trans (congrArg Outcome.state hstops.execAll_eq)
      have hstep := Machine.step_state_of_fault hstops.2.2
      rw [hstep] at hmemory
      refine ⟨congrArg (·.output) hmemory, congrArg (·.bindings) hmemory,
        congrArg (·.stack) hmemory, fun back => ?_⟩
      intro other
      have hother : Memory.execAll {} (m.code.take (k + 1) ++ back) = Memory.execAll {} m.code :=
        (hstops.execAll_append back).trans hstops.execAll_eq.symm
      refine ⟨?_, ?_⟩
      · rw [Machine.execute_fault, hother, hrun]
      · rw [Machine.execute_toMemory, hother, hleft]

/-- An addition that finds one operand and loses it; and a quotient by zero in code that would
fail behind it in another way, so that only what is before it shows. -/
theorem failed_instruction_takes_operands_of_examples :
    let short : Machine := ⟨⟨⟨⟨[("x", 3)]⟩, [8]⟩, [5]⟩, [.print]⟩
    let added := short.step (.binary .add)
    let divided : Code :=
      [.push 4, .push 7, .store "x", .push 6, .push 0, .binary .div, .load "y", .print]
    let left := (Machine.execute { code := divided }).state
    added.fault = some .emptyStack ∧ added.state.stack = [] ∧ added.state.output = [8] ∧
      (∀ k i before, divided.StopsAt k i before .divideByZero → k = 5) ∧
      left.bindings = ⟨[("x", 7)]⟩ ∧ left.stack = [4] ∧
      (Machine.execute { code := divided.take 6 ++ [.unary .sqrt] }).fault = some .divideByZero := by
  intro short added divided left
  obtain ⟨hstep, hexecute⟩ := failed_instruction_takes_operands
  have hadded : added.fault = some .emptyStack := rfl
  obtain ⟨-, -, houtput, hstack⟩ := hstep short (.binary .add) .emptyStack hadded
  have hdivided : (Machine.execute { code := divided }).fault = some .divideByZero := by decide
  obtain ⟨hunique, hleft⟩ := hexecute { code := divided } .divideByZero hdivided
  have hstops : divided.StopsAt 5 (.binary .div)
      ⟨⟨⟨⟨[("x", 7)]⟩, []⟩, [0, 6, 4]⟩, divided.take 5⟩ .divideByZero := ⟨rfl, rfl, rfl⟩
  obtain ⟨-, hbound, hremains, hback⟩ := hleft 5 _ _ hstops
  refine ⟨hadded, hstack, houtput, ?_, hbound, hremains, (hback [.unary .sqrt]).1⟩
  intro k i before hk
  exact hunique.unique ⟨i, before, hk⟩ ⟨_, _, hstops⟩

end PolishCalc
