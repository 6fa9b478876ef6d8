import PolishCalc.Lowering
import PolishCalc.Session
import PolishCalc.Stack

/-! # The stack machine

A machine holds code and a memory: an operand stack, bindings of its own and the
values printed.  Code is added by assembling lines of text, all of them or none.
Executing starts from an empty memory and keeps the code; a single step works on
the memory as it is.  A failed instruction leaves bindings and output alone, and
the operands it took off the stack are gone.
-/
namespace PolishCalc

/-- What instructions work on. -/
structure Memory extends Session where
  stack : Stack := []
deriving DecidableEq, Repr

namespace Memory

/-- The same memory with another stack. -/
def withStack (m : Memory) (s : Stack) : Memory := { m with stack := s }

/-- The same memory with another session. -/
def withSession (m : Memory) (s : Session) : Memory := { m with toSession := s }

@[simp] theorem withStack_stack (m : Memory) (s : Stack) : (m.withStack s).stack = s := rfl

@[simp] theorem withStack_toSession (m : Memory) (s : Stack) :
    (m.withStack s).toSession = m.toSession := rfl

@[simp] theorem withStack_withStack (m : Memory) (s t : Stack) :
    (m.withStack s).withStack t = m.withStack t := rfl

/-- Take the top value off the stack and use it. -/
def consume (m : Memory) (use : Session → Int32 → Session) : Outcome Memory :=
  Outcome.ofValue m m.stack.pop fun (v, rest) => (m.withStack rest).withSession (use m.toSession v)

/-- Execute one instruction. -/
def exec (m : Memory) : Instruction → Outcome Memory
  | .push v => ⟨m.withStack (v :: m.stack), none⟩
  | .store name => m.consume fun s v => s.bind name v
  | .load name => Outcome.ofValue m (m.bindings.read name) fun v => m.withStack (v :: m.stack)
  | .print => m.consume Session.emit
  | .unary op => (m.stack.applyUnary op).map m.withStack
  | .binary op => (m.stack.applyBinary op).map m.withStack

/-- Execute instructions in order, up to the first that fails. -/
def execAll (m : Memory) (c : Code) : Outcome Memory := Outcome.run exec m c

/-- Code runs on from the memory that the code before it leaves. -/
theorem execAll_append (m : Memory) (front back : Code) :
    m.execAll (front ++ back) = (m.execAll front).andThen fun next => next.execAll back :=
  Outcome.run_append exec m front back

end Memory

/-- Code, and the memory that it works on. -/
structure Machine extends Memory where
  code : Code := []
deriving DecidableEq, Repr

namespace Machine

/-- The same machine with another memory. -/
def withMemory (m : Machine) (memory : Memory) : Machine := { m with toMemory := memory }

/-- Add the code that lines stand for.  If one of them is no instruction, nothing
is added. -/
def assemble (m : Machine) (ls : List String) : Outcome Machine :=
  Outcome.ofValue m (Code.ofLines ls) fun c => { m with code := m.code ++ c }

/-- Execute one instruction on the memory as it is. -/
def step (m : Machine) (i : Instruction) : Outcome Machine :=
  (m.toMemory.exec i).map m.withMemory

/-- Step instructions in order, up to the first that fails. -/
def stepAll (m : Machine) (c : Code) : Outcome Machine := Outcome.run step m c

/-- Empty the stack and the output, and forget the bindings. -/
def clear (m : Machine) : Machine := { m with stack := [], bindings := {}, output := [] }

/-- Execute the machine's code from a cleared memory.  The code is taken out of the machine
while its instructions are stepped, and put back when they are done or one has failed. -/
def execute (m : Machine) : Outcome Machine :=
  let taken : Machine := { m.clear with code := [] }
  (taken.stepAll m.code).map fun left => { left with code := m.code }

/-! ## Stepping and executing are runs on a memory -/

/-- Stepping works on the machine's memory and on nothing else. -/
theorem stepAll_eq (m : Machine) (c : Code) :
    m.stepAll c = (m.toMemory.execAll c).map m.withMemory :=
  Outcome.run_map Memory.exec m.withMemory (fun _ _ => rfl) m.toMemory c

/-- **Executing is a run of the code on an empty memory,** whatever was in the machine's own. -/
theorem execute_eq_execAll (m : Machine) :
    m.execute = (Memory.execAll {} m.code).map m.withMemory := by
  rw [execute, stepAll_eq]
  rfl

theorem execute_fault (m : Machine) : m.execute.fault = (Memory.execAll {} m.code).fault := by
  rw [execute_eq_execAll, Outcome.map_fault]

theorem execute_toMemory (m : Machine) :
    m.execute.state.toMemory = (Memory.execAll {} m.code).state := by
  rw [execute_eq_execAll]
  rfl

/-! ## What a call can do -/

/-- Assembling adds all the code that the lines stand for, or fails and adds nothing. -/
theorem assemble_cases (m : Machine) (ls : List String) :
    (∃ c, Code.ofLines ls = .ok c ∧ m.assemble ls = ⟨{ m with code := m.code ++ c }, none⟩) ∨
    (∃ f, Code.ofLines ls = .error f ∧ m.assemble ls = ⟨m, some f⟩) := by
  rw [assemble]
  cases Code.ofLines ls with
  | ok c => exact .inl ⟨c, rfl, rfl⟩
  | error f => exact .inr ⟨f, rfl, rfl⟩

@[simp] theorem step_code (m : Machine) (i : Instruction) : (m.step i).state.code = m.code := rfl

@[simp] theorem execute_code (m : Machine) : m.execute.state.code = m.code := by
  rw [execute_eq_execAll]
  rfl

end Machine
end PolishCalc
