import PolishCalc.Proofs.InstructionText

/-! # What the text of a program keeps of its names

A program that was not read from text can have any texts for names, with blanks in them or
without a single word.  Its compiled lines do not mark where a name begins and ends, so
the machine that assembles them takes the first word behind `STORE` or `LOAD` for the name
and drops the rest, and where no word is left it refuses the line.  The blanks of such a
line are at its end, and what the machine reports is the line without them: the bare
`STORE` or `LOAD`.

All of this is `Code.ofLines_lines_eq`, said of a whole program.  The code that arrives is
the program's own just if nothing was dropped and nothing refused, that is, if the names
are words.
-/
namespace PolishCalc

open Text (IsWord words)

namespace Program

/-- The names of a program have words if no instruction of its code lacks a name. -/
theorem find?_lacksName_eq_none_iff {p : Program} :
    p.lower.find? Instruction.lacksName = none ↔ ∀ name ∈ p.names, words name ≠ [] := by
  rw [Code.find?_lacksName_eq_none_iff]
  exact forall_congr' fun name => imp_congr_left mem_names_lower

/-- Assembling a program all of whose names have words. -/
theorem assemble_of_words {p : Program} (h : p.lower.find? Instruction.lacksName = none) :
    Machine.assemble {} p.compile =
      ⟨{ code := p.lower.map (Instruction.rename Text.firstWord) }, none⟩ := by
  rw [Machine.assemble, compile, Code.ofLines_lines_eq, h]
  rfl

/-- Assembling a program stops at the first name without a word. -/
theorem assemble_of_lacksName {p : Program} {i : Instruction}
    (h : p.lower.find? Instruction.lacksName = some i) :
    Machine.assemble {} p.compile = ⟨{}, some (.illegalInstruction i.mnemonic)⟩ := by
  rw [Machine.assemble, compile, Code.ofLines_lines_eq, h]
  rfl

/-- The code that arrives is the program's own just if the names are words. -/
theorem code_assemble_eq_iff {p : Program} :
    (Machine.assemble {} p.compile).state.code = p.lower ↔ ∀ name ∈ p.names, IsWord name := by
  cases hfind : p.lower.find? Instruction.lacksName with
  | none =>
    rw [assemble_of_words hfind]
    show p.lower.map _ = p.lower ↔ _
    rw [Code.map_rename_eq_self_iff]
    constructor
    · intro h name hn
      have hword := find?_lacksName_eq_none_iff.mp hfind name hn
      exact Text.isWord_iff.mpr ⟨hword, h name (mem_names_lower.mpr hn)⟩
    · intro h name hn
      exact (Text.isWord_iff.mp (h name (mem_names_lower.mp hn))).2
  | some i =>
    -- The machine is empty, and the program has the instruction that was refused.
    rw [assemble_of_lacksName hfind]
    show [] = p.lower ↔ _
    constructor
    · intro hempty
      rw [← hempty] at hfind
      cases hfind
    · intro h
      have hnone := find?_lacksName_eq_none_iff.mpr fun name hn =>
        (Text.isWord_iff.mp (h name hn)).1
      rw [hfind] at hnone
      cases hnone

end Program

/-- **Assembling keeps the first word of each name.**  If every name of a program has a word,
its lines assemble to its code with each name cut to the first one.  Otherwise they do not
assemble, the machine stays empty, and the fault is the bare `STORE` or `LOAD` of the first
instruction whose name has none.  So the machine holds the program's own code exactly if the
names are words. -/
theorem assembling_keeps_first_words (p : Program) :
    let assembled := Machine.assemble {} p.compile
    ((∀ name ∈ p.names, words name ≠ []) →
      assembled = ⟨{ code := p.lower.map (Instruction.rename Text.firstWord) }, none⟩) ∧
    ((∃ name ∈ p.names, words name = []) →
      ∃ name,
        p.lower.find? Instruction.lacksName = some (.store name) ∧
          assembled = ⟨{}, some (.illegalInstruction "STORE")⟩ ∨
        p.lower.find? Instruction.lacksName = some (.load name) ∧
          assembled = ⟨{}, some (.illegalInstruction "LOAD")⟩) ∧
    (assembled.state.code = p.lower ↔ ∀ name ∈ p.names, IsWord name) := by
  intro assembled
  refine ⟨fun hwords => ?_, ?_, ?_⟩
  · exact Program.assemble_of_words (Program.find?_lacksName_eq_none_iff.mpr hwords)
  · rintro ⟨name, hn, hblank⟩
    cases hfind : p.lower.find? Instruction.lacksName with
    | none => exact absurd hblank (Program.find?_lacksName_eq_none_iff.mp hfind name hn)
    | some i =>
      have hassembled : assembled = _ := Program.assemble_of_lacksName hfind
      have hlacks : i.lacksName := List.find?_some hfind
      cases i with
      | store name => exact ⟨name, .inl ⟨rfl, hassembled⟩⟩
      | load name => exact ⟨name, .inr ⟨rfl, hassembled⟩⟩
      | push v | print | unary op | binary op => cases hlacks
  · exact Program.code_assemble_eq_iff

/-- A name of which the word between a no-break space and a space is left; and a program that
is refused at a name of blanks, the second in its code, before an empty one. -/
theorem assembling_keeps_first_words_of_examples :
    let cut : Program := [.assign "\u00a0a b\tc" (.var "a b")]
    let refused : Program :=
      [.assign "x y" (.const 1), .print (.var " \u3000\n"), .assign "" (.const 2)]
    (∀ name ∈ cut.names, words name ≠ []) ∧
      Machine.assemble {} cut.compile = ⟨{ code := [.load "a", .store "a"] }, none⟩ ∧
      (∃ name ∈ refused.names, words name = []) ∧
      Machine.assemble {} refused.compile = ⟨{}, some (.illegalInstruction "LOAD")⟩ := by
  intro cut refused
  have hcut : ∀ name ∈ cut.names, words name ≠ [] := by decide
  have hrefused : ∃ name ∈ refused.names, words name = [] := by decide
  obtain ⟨hassembled, -, -⟩ := assembling_keeps_first_words cut
  obtain ⟨-, hfault, -⟩ := assembling_keeps_first_words refused
  refine ⟨hcut, hassembled hcut, hrefused, ?_⟩
  obtain ⟨name, ⟨hstore, -⟩ | ⟨-, hload⟩⟩ := hfault hrefused
  · have hfirst : refused.lower.find? Instruction.lacksName = some (.load " \u3000\n") := by decide
    rw [hfirst] at hstore
    cases hstore
  · exact hload

end PolishCalc
