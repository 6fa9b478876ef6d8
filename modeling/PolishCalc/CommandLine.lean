import PolishCalc.Machine
import PolishCalc.Reader

/-! # The two commands

The calculator reads a program, runs it, and then compiles it, assembles the code
and executes it, showing each stage under a heading.  The machine command starts
from instruction text instead and has the last stages only; both share
`machineRun`.  A command's whole behaviour is a `Transcript`, a function of its
input.

How a command words the fault that it ends with is not its own decision.  It hands the
line that reports the fault, and what lies behind it, to an `ErrorReport`, of which no more
is required than that it begins with that line.
-/
namespace PolishCalc

open Text (joinLines)

/-- The wording of the fault that a command ends with. -/
structure ErrorReport where
  /-- From the line that reports a fault and what lies behind it, if that is known. -/
  text : String → Option String → String
  /-- The line comes first, and as it is. -/
  begins_with_message : ∀ message detail?, ∃ behind, text message detail? = message ++ behind

/-- The line, and what lies behind the fault in a paragraph of its own.  This is the wording
where no trace of the calls that led to the fault is asked for; such a trace would follow. -/
def ErrorReport.withCause : ErrorReport where
  text message detail? :=
    match detail? with
    | some detail => message ++ ("\n\nCaused by:\n    " ++ detail)
    | none => message
  begins_with_message message detail? := by
    cases detail? with
    | some detail => exact ⟨_, rfl⟩
    | none => exact ⟨"", String.append_empty.symm⟩

/-- What a command writes, and whether it succeeds. -/
structure Transcript where
  stdout : String := ""
  stderr : String := ""
  /-- Zero on success. -/
  exitCode : UInt8 := 0
deriving DecidableEq, Repr

variable (report : ErrorReport)

namespace Transcript

/-- A command that gives up with a message, and with what lies behind it if that is
known. -/
def failure (message : String) (detail? : Option String) : Transcript :=
  { stderr := "Error: " ++ report.text message detail? ++ "\n", exitCode := 1 }

/-- A command that gives up with a fault. -/
def ofFault (f : Fault) : Transcript := failure report f.message f.detail?

/-- A command that writes `text` first. -/
def after (text : String) (t : Transcript) : Transcript :=
  { t with stdout := text ++ t.stdout }

/-- Go on with a value, or give up with the fault in its place. -/
def ofExcept {α : Type} (value : Except Fault α) (next : α → Transcript) : Transcript :=
  match value with
  | .ok a => next a
  | .error f => ofFault report f

/-- Go on from the state that a stage leaves, or give up with its fault. -/
def ofOutcome {σ : Type} (o : Outcome σ) (next : σ → Transcript) : Transcript :=
  match o.fault with
  | none => next o.state
  | some f => ofFault report f

@[simp] theorem after_stdout (text : String) (t : Transcript) :
    (t.after text).stdout = text ++ t.stdout := rfl

@[simp] theorem after_stderr (text : String) (t : Transcript) :
    (t.after text).stderr = t.stderr := rfl

@[simp] theorem after_exitCode (text : String) (t : Transcript) :
    (t.after text).exitCode = t.exitCode := rfl

@[simp] theorem ofFault_stdout (f : Fault) : (ofFault report f).stdout = "" := rfl

@[simp] theorem ofFault_exitCode (f : Fault) : (ofFault report f).exitCode = 1 := rfl

/-- A fault is reported by its message; what lies behind it may follow. -/
theorem ofFault_stderr (f : Fault) :
    ∃ behind, (ofFault report f).stderr = "Error: " ++ f.message ++ behind := by
  obtain ⟨behind, htext⟩ := report.begins_with_message f.message f.detail?
  refine ⟨behind ++ "\n", ?_⟩
  rw [ofFault, failure, htext]
  simp only [String.append_assoc]

section Stages

variable {α σ : Type}

@[simp] theorem ofExcept_ok (a : α) (next : α → Transcript) :
    ofExcept report (.ok a) next = next a := rfl

@[simp] theorem ofExcept_error (f : Fault) (next : α → Transcript) :
    ofExcept report (.error f) next = ofFault report f := rfl

theorem ofOutcome_of_none {o : Outcome σ} (h : o.fault = none) (next : σ → Transcript) :
    ofOutcome report o next = next o.state := by
  rw [ofOutcome, h]

theorem ofOutcome_of_some {o : Outcome σ} {f : Fault} (h : o.fault = some f)
    (next : σ → Transcript) : ofOutcome report o next = ofFault report f := by
  rw [ofOutcome, h]

end Stages

end Transcript

namespace CommandLine

open Transcript (after failure ofExcept ofOutcome)

/-- The line that announces a stage. -/
def heading (title : String) : String := "== " ++ title ++ " ==\n"

/-- Printed values, a line for each. -/
def valueLines (values : List Int32) : String := joinLines (values.map Numeral.text)

/-- Assemble lines and execute them. -/
def machineRun (ls : List String) : Transcript :=
  ofOutcome report (Machine.assemble {} ls) fun m =>
    let executed := m.execute
    after (heading "machine instructions" ++ m.code.listing ++ heading "executing" ++
        valueLines executed.state.output) <|
      ofOutcome report executed fun m =>
        { stdout := heading "machine bindings" ++ m.bindings.report ++
            heading "machine stack" ++ m.stack.report }

/-- The calculator on source text. -/
def calculate (source : String) : Transcript :=
  ofExcept report (Program.ofSource source) fun p =>
    let ran := Session.run {} p
    after (heading "infix" ++ p.render ++ heading "interpreting" ++
        valueLines ran.state.output) <|
      ofOutcome report ran fun s =>
        after (heading "interpreter bindings" ++ s.bindings.report) <|
          machineRun report p.compile

/-- The machine command on instruction text. -/
def machine (text : String) : Transcript := machineRun report (Text.lines text)

/-- A command on bytes, which have to be UTF-8; `content` is what they hold. -/
def onBytes (content : String) (command : String → Transcript) (input : ByteArray) : Transcript :=
  match String.fromUTF8? input with
  | some text => command text
  | none =>
    failure report ("reading " ++ content ++ " from stdin")
      (some "stream did not contain valid UTF-8")

/-- The calculator on its standard input. -/
def calculateBytes (input : ByteArray) (report : ErrorReport := .withCause) : Transcript :=
  onBytes report "program" (calculate report) input

/-- The machine command on its standard input. -/
def machineBytes (input : ByteArray) (report : ErrorReport := .withCause) : Transcript :=
  onBytes report "instructions" (machine report) input

end CommandLine
end PolishCalc
