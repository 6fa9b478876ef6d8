import PolishCalc.CommandLine
import PolishCalc.Proofs.CompilerCorrectness

/-! # What the calculator shows

The calculator can give up at four places: when its input is no program, when the
program fails, when the compiled lines do not assemble, and when executing them
fails.  The last two are there for the machine's sake only.  A program that was read
has words for names, so its lines assemble; and the code does what the program did
just before, so a program that came to its end is executed to the end as well.

What is left are three behaviours, and each is given in full: nothing on standard
output, the program and the values up to the fault, or all seven stages, where the
machine's values and bindings repeat those of the direct run and its stack is empty.
-/
namespace PolishCalc

open Text (IsWord)

namespace CommandLine

/-- What is shown before the result of running the program is known. -/
def shownBeforeResult (p : Program) : String :=
  heading "infix" ++ p.render ++ heading "interpreting" ++
    valueLines (Session.run {} p).state.output

/-! ## The machine's stages -/

variable (report : ErrorReport)

/-- Executing a program that comes to its end. -/
theorem machineRun_compile {p : Program} (words : ∀ name ∈ p.names, IsWord name)
    (hran : (Session.run {} p).fault = none) :
    machineRun report p.compile =
      { stdout :=
          heading "machine instructions" ++ p.lower.listing ++ heading "executing" ++
            valueLines (Session.run {} p).state.output ++
            (heading "machine bindings" ++ (Session.run {} p).state.bindings.report ++
              heading "machine stack" ++ "EMPTY\n") } := by
  obtain ⟨left, hexecute, hleft⟩ := p.execute_lower
  have hempty : left = [] := hleft hran
  subst hempty
  have hfault : (Machine.execute { code := p.lower }).fault = none := by
    rw [hexecute, Outcome.map_fault, hran]
  rw [machineRun, Program.assemble_compile words, Transcript.ofOutcome_of_none report rfl]
  dsimp only
  rw [Transcript.ofOutcome_of_none report hfault, hexecute]
  rfl

/-! ## The calculator's three behaviours -/

theorem calculate_of_rejected {source : String} {f : Fault}
    (h : Program.ofSource source = .error f) :
    calculate report source = Transcript.ofFault report f := by
  rw [calculate, h, Transcript.ofExcept_error]

theorem calculate_of_fault {source : String} {p : Program} {f : Fault}
    (hread : Program.ofSource source = .ok p) (hran : (Session.run {} p).fault = some f) :
    calculate report source = (Transcript.ofFault report f).after (shownBeforeResult p) := by
  rw [calculate, hread, Transcript.ofExcept_ok]
  dsimp only
  rw [Transcript.ofOutcome_of_some report hran]
  rfl

theorem calculate_of_end {source : String} {p : Program}
    (hread : Program.ofSource source = .ok p) (hran : (Session.run {} p).fault = none) :
    calculate report source =
      ((machineRun report p.compile).after
        (heading "interpreter bindings" ++ (Session.run {} p).state.bindings.report)).after
          (shownBeforeResult p) := by
  rw [calculate, hread, Transcript.ofExcept_ok]
  dsimp only
  rw [Transcript.ofOutcome_of_none report hran]
  rfl

theorem calculateBytes_of_utf8 {input : ByteArray} {source : String}
    (utf8 : String.fromUTF8? input = some source) :
    calculateBytes input report = calculate report source := by
  rw [calculateBytes, onBytes, utf8]

end CommandLine

open CommandLine

/-- **The calculator's contract,** whatever words faults are reported in.  On input that is
no program nothing is shown; a program that fails is shown with the values printed before
the fault; and a program that comes to its end is shown with all stages, in which the
machine repeats values and bindings and leaves no operand.  Assembling and executing never
fail where they are reached. -/
theorem calculator_contract (report : ErrorReport) (input : ByteArray) (source : String)
    (utf8 : String.fromUTF8? input = some source) :
    (∀ f, Program.ofSource source = .error f →
      (calculateBytes input report).stdout = "" ∧ (calculateBytes input report).exitCode = 1) ∧
    (∀ p, Program.ofSource source = .ok p →
      let shown := calculateBytes input report
      let ran := Session.run {} p
      let assembled := Machine.assemble {} p.compile
      let executed := assembled.state.execute
      (∀ f, ran.fault = some f →
        shown.stdout =
          heading "infix" ++ p.render ++ heading "interpreting" ++ valueLines ran.state.output ∧
        shown.exitCode = 1 ∧
        ∃ behind, shown.stderr = "Error: " ++ f.message ++ behind) ∧
      (ran.fault = none →
        shown.exitCode = 0 ∧ shown.stderr = "" ∧
        shown.stdout =
          heading "infix" ++ p.render ++ heading "interpreting" ++ valueLines ran.state.output ++
            (heading "interpreter bindings" ++ ran.state.bindings.report ++
              (heading "machine instructions" ++ assembled.state.code.listing ++
                heading "executing" ++ valueLines ran.state.output ++
                (heading "machine bindings" ++ ran.state.bindings.report ++
                  heading "machine stack" ++ "EMPTY\n"))) ∧
        assembled.fault = none ∧ executed.fault = none)) := by
  refine ⟨?_, ?_⟩
  · intro f hrejected
    rw [calculateBytes_of_utf8 report utf8, calculate_of_rejected report hrejected]
    exact ⟨Transcript.ofFault_stdout report f, Transcript.ofFault_exitCode report f⟩
  · intro p hread shown ran assembled executed
    have hshown : shown = calculate report source := calculateBytes_of_utf8 report utf8
    have words : ∀ name ∈ p.names, IsWord name := Program.isWord_of_ofSource hread
    have hassembled : assembled = ⟨{ code := p.lower }, none⟩ := Program.assemble_compile words
    refine ⟨?_, ?_⟩
    · intro f hran
      rw [hshown, calculate_of_fault report hread hran]
      refine ⟨?_, ?_, ?_⟩
      · rw [Transcript.after_stdout, Transcript.ofFault_stdout, String.append_empty]
        rfl
      · rw [Transcript.after_exitCode, Transcript.ofFault_exitCode]
      · rw [Transcript.after_stderr]
        exact Transcript.ofFault_stderr report f
    · intro hran
      obtain ⟨left, hexecute, -⟩ := p.execute_lower
      have hexecuted : executed.fault = none := by
        show assembled.state.execute.fault = none
        rw [hassembled, hexecute, Outcome.map_fault]
        exact hran
      rw [hshown, calculate_of_end report hread hran, machineRun_compile report words hran,
        hassembled]
      exact ⟨rfl, rfl, rfl, rfl, hexecuted⟩

/-- A text that is no program, a program that fails after it has printed a value, and all
stages of one that binds and prints. -/
theorem calculator_contract_of_examples :
    let rejected := calculateBytes "@ 1 print 2".toUTF8
    let failed := calculateBytes "@ 7 = x / 1 0 @ x".toUTF8
    let shown := calculateBytes "= x 6\n@ * x 7\n".toUTF8
    (rejected.stdout = "" ∧ rejected.exitCode = 1 ∧
      rejected.stderr = "Error: illegal action encountered in source: print\n") ∧
    (failed.stdout =
        "== infix ==\nPrint 7\nx = ( 1 / 0 )\nPrint x\n== interpreting ==\n7\n" ∧
      failed.exitCode = 1 ∧ failed.stderr = "Error: divide by zero\n") ∧
    (shown.exitCode = 0 ∧ shown.stderr = "" ∧
      shown.stdout = "== infix ==\nx = 6\nPrint ( x * 7 )\n== interpreting ==\n42\n" ++
        "== interpreter bindings ==\nx: 6\n== machine instructions ==\nPUSH 6\nSTORE x\n" ++
        "LOAD x\nPUSH 7\nMUL\nPRINT\n== executing ==\n42\n== machine bindings ==\nx: 6\n" ++
        "== machine stack ==\nEMPTY\n") := by
  refine ⟨?_, ?_, ?_⟩
  · have utf8 : String.fromUTF8? "@ 1 print 2".toUTF8 = some "@ 1 print 2" := by rfl
    obtain ⟨hrejected, -⟩ := calculator_contract .withCause _ _ utf8
    obtain ⟨hout, hcode⟩ := hrejected (.illegalAction "print") (by rfl)
    exact ⟨hout, hcode, by decide +kernel⟩
  · have utf8 : String.fromUTF8? "@ 7 = x / 1 0 @ x".toUTF8 = some "@ 7 = x / 1 0 @ x" := by rfl
    have hread : Program.ofSource "@ 7 = x / 1 0 @ x" =
        .ok [.print (.const 7), .assign "x" (.binary .div (.const 1) (.const 0)),
          .print (.var "x")] := by rfl
    obtain ⟨-, hok⟩ := calculator_contract .withCause _ _ utf8
    obtain ⟨hout, hcode, -⟩ := (hok _ hread).1 .divideByZero (by decide)
    exact ⟨hout.trans (by decide +kernel), hcode, by decide +kernel⟩
  · have utf8 : String.fromUTF8? "= x 6\n@ * x 7\n".toUTF8 = some "= x 6\n@ * x 7\n" := by rfl
    have hread : Program.ofSource "= x 6\n@ * x 7\n" =
        .ok [.assign "x" (.const 6), .print (.binary .mul (.var "x") (.const 7))] := by rfl
    obtain ⟨-, hok⟩ := calculator_contract .withCause _ _ utf8
    obtain ⟨hcode, herr, hout, -⟩ := (hok _ hread).2 (by decide)
    exact ⟨hcode, herr, hout.trans (by decide +kernel)⟩

end PolishCalc
