import PolishCalc.Proofs.InstructionText
import PolishCalc.Proofs.LoweredRuns
import PolishCalc.Proofs.ReadTokens

/-! # Compiled programs behave as they are written

A program can be run directly, or compiled to lines of text, assembled and executed.
Both ways give the same faults, the same values printed and the same bindings in
the same order, whether or not the run comes to its end.  Two things have to go
right on the way: the text has to bring the code back, for which the names need to
be words, and the code has to do what the program says.  The first is
`Program.assemble_compile`, the second `Memory.execAll_lower_program`.

A program that was read from text meets the condition on names by itself, because
the reader takes its names from the words of the text.
-/
namespace PolishCalc

open Text (IsWord)

/-- Executing a program's code from an empty memory: the session and the fault of
running the program, and operands on the stack after a fault only. -/
theorem Program.execute_lower (p : Program) :
    ∃ left : Stack,
      Machine.execute { code := p.lower } =
        (Session.run {} p).map (fun s => ⟨⟨s, left⟩, p.lower⟩) ∧
      ((Session.run {} p).fault = none → left = []) := by
  obtain ⟨left, hrun, hleft⟩ := Memory.execAll_lower_program {} p
  refine ⟨left, ?_, hleft⟩
  rw [Machine.execute_eq_execAll, hrun]
  show Outcome.mk _ _ = Outcome.mk _ _
  rw [show left ++ Memory.stack {} = left from List.append_nil left]
  rfl

/-- **Compiling keeps the meaning of a program.**  If the names are words, as they are
in every program read from text, a new machine takes the compiled lines; executing
them ends with the fault that running the program ends with, or with none, and
leaves the same output and the same bindings.  The stack is empty unless there was
a fault, and the fault is never that of an empty stack. -/
theorem compiled_program_agrees (p : Program) :
    (∀ source, Program.ofSource source = .ok p → ∀ name ∈ p.names, IsWord name) ∧
    ((∀ name ∈ p.names, IsWord name) →
      let assembled := Machine.assemble {} p.compile
      let executed := assembled.state.execute
      let ran := Session.run {} p
      assembled.fault = none ∧
      executed.fault = ran.fault ∧
      executed.state.output = ran.state.output ∧
      executed.state.bindings = ran.state.bindings ∧
      (executed.fault = none → executed.state.stack = []) ∧
      executed.fault ≠ some .emptyStack) := by
  refine ⟨fun _ => Program.isWord_of_ofSource, ?_⟩
  intro words assembled executed ran
  have hassembled : assembled = ⟨{ code := p.lower }, none⟩ := Program.assemble_compile words
  obtain ⟨left, hexecute, hleft⟩ := p.execute_lower
  have hexecuted : executed = ran.map fun s => ⟨⟨s, left⟩, p.lower⟩ := by
    show assembled.state.execute = _
    rw [hassembled]
    exact hexecute
  have hfault : executed.fault = ran.fault := by rw [hexecuted, Outcome.map_fault]
  refine ⟨by rw [hassembled], hfault, by rw [hexecuted]; rfl, by rw [hexecuted]; rfl, ?_, ?_⟩
  · intro hnone
    rw [hexecuted]
    exact hleft (hfault ▸ hnone)
  · rw [hfault]
    exact Session.performAll_ne_emptyStack {} p

/-- A program that stops inside a quotient, with an operand of another operator on
the stack. -/
theorem compiled_program_agrees_until_fault :
    let p : Program :=
      [.assign "x" (.const 7), .print (.binary .sub (.var "x") (.const 2)),
        .print (.binary .add (.const 1) (.binary .div (.var "x") (.const 0))), .print (.const 9)]
    Program.ofSource "= x 7 @ - x 2\n@ + 1 / x 0 @ 9" = .ok p ∧
      (∀ name ∈ p.names, IsWord name) ∧
      (Machine.assemble {} p.compile).state.execute.fault = some .divideByZero ∧
      (Machine.assemble {} p.compile).state.execute.state.output = [5] := by
  intro p
  have hread : Program.ofSource "= x 7 @ - x 2\n@ + 1 / x 0 @ 9" = .ok p := by rfl
  have words : ∀ name ∈ p.names, IsWord name := (compiled_program_agrees p).1 _ hread
  obtain ⟨-, hfault, houtput, -⟩ := (compiled_program_agrees p).2 words
  exact ⟨hread, words, hfault.trans (by decide), houtput.trans (by decide)⟩

end PolishCalc
