import PolishCalc.Proofs.Calculator

/-! # A listing stands for its code

The machine command shows its code as a listing, a line for each instruction, before
it executes it.  Whatever text the code was read from, with whatever blanks, signs,
leading zeros and words too many, the listing is a text of the same code: a name that
was read is a word, so it neither ends a line nor is cut short in it.  A run depends
on its input only through the code that is read (`CommandLine.machineRun_congr`), so
the listing can be put in place of the input, and the run does not change, faults
included.

For the calculator this means that its last stages do not depend on the program any
more: everything from the machine's first heading on is what the machine command makes
of the listing alone.
-/
namespace PolishCalc

open Text (IsWord IsLine)

/-! ## What is read, and what is listed -/

namespace Instruction

/-- An instruction whose name, should it have one, is a word takes one line. -/
theorem isLine_text {i : Instruction} (h : ∀ name ∈ i.name?, IsWord name) : IsLine i.text := by
  cases hx : i.operand? with
  | none =>
    rw [text_of_no_operand hx]
    exact i.isWord_mnemonic.isLine
  | some x =>
    rw [text_of_operand hx]
    refine Text.isLine_append_word ?_ (isWord_operand h x hx)
    intro c hc
    rw [String.toList_append, List.mem_append] at hc
    rcases hc with hc | hc
    · exact i.isWord_mnemonic.isLine.1 c hc
    · have hspace : c = ' ' := by simpa using hc
      rw [hspace]
      rfl

theorem name?_of_ofMnemonic? {mnemonic : String} {i : Instruction}
    (h : ofMnemonic? mnemonic = some i) : i.name? = none := by
  -- `PRINT`, then the unary operators, then the binary ones: none of them has a name.
  unfold ofMnemonic? at h
  split at h
  · cases h
    rfl
  · cases hop : UnaryOp.ofMnemonic? mnemonic with
    | some op =>
      rw [hop] at h
      cases h
      rfl
    | none =>
      rw [hop] at h
      obtain ⟨op, -, rfl⟩ := Option.map_eq_some_iff.mp h
      rfl

/-- The name of an instruction is one of the words it was read from. -/
theorem mem_of_ofWords {line mnemonic name : String} {operands : List String} {i : Instruction}
    (h : ofWords line mnemonic operands = .ok i) (hn : name ∈ i.name?) : name ∈ operands := by
  unfold ofWords at h
  split at h
  · split at h <;> cases h
    cases hn
  · split at h <;> cases h
    cases hn
    exact List.mem_of_head? ‹_›
  · split at h <;> cases h
    cases hn
    exact List.mem_of_head? ‹_›
  · split at h <;> cases h
    rw [name?_of_ofMnemonic? ‹_›] at hn
    cases hn

/-- **A name that is read from a line is a word.** -/
theorem isWord_of_readLine {line : String} {i : Instruction}
    (h : readLine line = .ok (some i)) : ∀ name ∈ i.name?, IsWord name := by
  intro name hn
  unfold readLine at h
  split at h
  · cases h
  · rename_i mnemonic operands hwords
    obtain ⟨j, hread, hj⟩ := map_eq_ok_iff.mp h
    cases hj
    refine Text.isWord_of_mem_words (s := line) ?_
    rw [hwords]
    exact List.mem_cons_of_mem _ (mem_of_ofWords hread hn)

end Instruction

namespace Code

theorem isWord_of_ofLines {ls : List String} {c : Code} (h : ofLines ls = .ok c) :
    ∀ name ∈ c.names, IsWord name := by
  induction ls generalizing c with
  | nil =>
    cases h
    exact nofun
  | cons line rest ih =>
    obtain ⟨i?, c', hline, hrest, rfl⟩ := ofLines_cons_eq_ok_iff.mp h
    intro name hn
    rw [names_append, List.mem_append] at hn
    rcases hn with hn | hn
    · cases i? with
      | none => cases hn
      | some i =>
        exact Instruction.isWord_of_readLine hline name (by simpa [names] using hn)
    · exact ih hrest name hn

theorem lines_listing {c : Code} (h : ∀ name ∈ c.names, IsWord name) :
    Text.lines c.listing = c.lines := by
  refine Text.lines_joinLines ?_
  intro line hline
  obtain ⟨i, hi, rfl⟩ := List.mem_map.mp hline
  exact Instruction.isLine_text fun name hn => h name (Code.mem_names.mpr ⟨i, hi, hn⟩)

/-- **A listing is read as the code that it lists,** if the names are words. -/
theorem ofLines_listing {c : Code} (h : ∀ name ∈ c.names, IsWord name) :
    ofLines (Text.lines c.listing) = .ok c := by
  rw [lines_listing h, ofLines_lines h]

end Code

/-! ## The machine command -/

namespace CommandLine

variable (report : ErrorReport)

/-- A run depends on the lines only through the code that they are read as. -/
theorem machineRun_congr {ls ls' : List String} (h : Code.ofLines ls = Code.ofLines ls') :
    machineRun report ls = machineRun report ls' := by
  rw [machineRun, machineRun, Machine.assemble, Machine.assemble, h]

/-- **The listing of code can be given in place of the text it was read from.** -/
theorem machine_listing {text : String} {c : Code} (h : Code.ofLines (Text.lines text) = .ok c) :
    machine report c.listing = machine report text :=
  machineRun_congr report <| (Code.ofLines_listing (Code.isWord_of_ofLines h)).trans h.symm

theorem fromUTF8?_toUTF8 (text : String) : String.fromUTF8? text.toUTF8 = some text :=
  dif_pos text.isValidUTF8

/-- A command on the bytes of a text is the command on that text. -/
theorem onBytes_toUTF8 (content text : String) (command : String → Transcript) :
    onBytes report content command text.toUTF8 = command text := by
  rw [onBytes, fromUTF8?_toUTF8]

/-- What the calculator shows before the machine's stages. -/
def shownBeforeMachine (p : Program) : String :=
  shownBeforeResult p ++
    (heading "interpreter bindings" ++ (Session.run {} p).state.bindings.report)

/-- A calculator that succeeds has read a program and run it to its end. -/
theorem exists_of_calculate {source : String} (h : (calculate report source).exitCode = 0) :
    ∃ p, Program.ofSource source = .ok p ∧ (Session.run {} p).fault = none := by
  cases hread : Program.ofSource source with
  | error f =>
    rw [calculate_of_rejected report hread, Transcript.ofFault_exitCode] at h
    exact absurd h (by decide)
  | ok p =>
    refine ⟨p, rfl, ?_⟩
    cases hran : (Session.run {} p).fault with
    | none => rfl
    | some f =>
      rw [calculate_of_fault report hread hran, Transcript.after_exitCode,
        Transcript.ofFault_exitCode] at h
      exact absurd h (by decide)

/-- The listing of a program that was read, given to the machine command. -/
theorem machine_listing_compile {p : Program} (words : ∀ name ∈ p.names, IsWord name) :
    machine report p.lower.listing = machineRun report p.compile := by
  have hnames : ∀ name ∈ p.lower.names, IsWord name := fun name hn =>
    words name (Program.mem_names_lower.mp hn)
  rw [machine, Code.lines_listing hnames, Program.compile]

end CommandLine

open CommandLine

/-- **A listing can be put in place of what it lists,** whatever words faults are reported
in.  If the calculator succeeds, the machine command succeeds on the listing that the
calculator showed, and shows what the calculator showed from the machine's first heading on.
And if the machine command assembles its input, it does the same on its listing as on the
input, whether or not executing the code succeeds. -/
theorem listing_replaces_input (report : ErrorReport) :
    (∀ input source, String.fromUTF8? input = some source →
      (calculateBytes input report).exitCode = 0 → ∃ p, Program.ofSource source = .ok p ∧
        let listing := (Machine.assemble {} p.compile).state.code.listing
        let again := machineBytes listing.toUTF8 report
        again.exitCode = 0 ∧ again.stderr = "" ∧
        (calculateBytes input report).stdout = shownBeforeMachine p ++ again.stdout ∧
        ∃ behind, again.stdout =
          heading "machine instructions" ++ listing ++ heading "executing" ++ behind) ∧
    (∀ input text, String.fromUTF8? input = some text →
      let assembled := Machine.assemble {} (Text.lines text)
      assembled.fault = none →
        machineBytes assembled.state.code.listing.toUTF8 report = machineBytes input report) := by
  refine ⟨?_, ?_⟩
  · intro input source hutf8 hcode
    rw [calculateBytes_of_utf8 report hutf8] at hcode ⊢
    obtain ⟨p, hread, hran⟩ := exists_of_calculate report hcode
    refine ⟨p, hread, ?_⟩
    intro listing again
    have words : ∀ name ∈ p.names, IsWord name := Program.isWord_of_ofSource hread
    have hlisting : listing = p.lower.listing := by
      show (Machine.assemble {} p.compile).state.code.listing = _
      rw [Program.assemble_compile words]
    -- Both commands are now about one run, that of the program's own lines.
    have hagain : again = machineRun report p.compile := by
      show onBytes report _ (machine report) listing.toUTF8 = _
      rw [onBytes_toUTF8, hlisting, machine_listing_compile report words]
    rw [hagain, calculate_of_end report hread hran, machineRun_compile report words hran, hlisting]
    refine ⟨rfl, rfl, ?_, ?_⟩
    · rw [Transcript.after_stdout, Transcript.after_stdout]
      exact String.append_assoc.symm
    · exact ⟨_, by rw [String.append_assoc]⟩
  · intro input text hutf8 assembled hassembled
    rcases Machine.assemble_cases {} (Text.lines text) with ⟨c, hread, hc⟩ | ⟨f, -, hf⟩
    · have hcode : assembled.state.code = c := by
        show (Machine.assemble {} (Text.lines text)).state.code = c
        rw [hc]
        rfl
      rw [hcode, machineBytes, onBytes_toUTF8, machine_listing report hread, machineBytes, onBytes,
        hutf8]
    · have hfault : assembled.fault = some f := by
        show (Machine.assemble {} (Text.lines text)).fault = _
        rw [hf]
      rw [hfault] at hassembled
      cases hassembled

/-- A calculation that succeeds, and instruction text that assembles and then fails: with
a carriage return, a blank line, a plus sign, leading zeros and words too many. -/
theorem listing_replaces_input_until_fault :
    let listed := machineBytes "PUSH 6\nSTORE x\nLOAD x\nPUSH 7\nMUL\nPRINT\n".toUTF8
    let failed := machineBytes "  PUSH +007 \r\n\nPRINT 3\n LOAD\ta b\nPRINT".toUTF8
    (listed.exitCode = 0 ∧ listed.stderr = "" ∧
      listed.stdout = "== machine instructions ==\nPUSH 6\nSTORE x\nLOAD x\nPUSH 7\nMUL\n" ++
        "PRINT\n== executing ==\n42\n== machine bindings ==\nx: 6\n" ++
        "== machine stack ==\nEMPTY\n") ∧
    machineBytes "PUSH 7\nPRINT\nLOAD a\nPRINT\n".toUTF8 = failed ∧
    failed.exitCode = 1 ∧ failed.stderr = "Error: uninitialized variable: a\n" ∧
      failed.stdout =
        "== machine instructions ==\nPUSH 7\nPRINT\nLOAD a\nPRINT\n== executing ==\n7\n" := by
  intro listed failed
  obtain ⟨hcalculate, hmachine⟩ := listing_replaces_input .withCause
  refine ⟨?_, ?_, by decide +kernel⟩
  · obtain ⟨p, hread, hcode, herr, -⟩ := hcalculate _ _ (fromUTF8?_toUTF8 "= x 6\n@ * x 7\n")
      (by decide +kernel)
    have hp : p = [.assign "x" (.const 6), .print (.binary .mul (.var "x") (.const 7))] :=
      (Except.ok.inj hread).symm
    subst hp
    exact ⟨hcode, herr, by decide +kernel⟩
  · have hsame := hmachine _ _
      (fromUTF8?_toUTF8 "  PUSH +007 \r\n\nPRINT 3\n LOAD\ta b\nPRINT") (by decide +kernel)
    exact hsame

end PolishCalc
