import PolishCalc.Proofs.InstructionText
import PolishCalc.Text.Contents

/-! # How instruction text may be laid out

A line of instruction text is read through its words, of which the first two count at most.  So an
instruction does not depend on the blanks of its line, nor on further words behind those that it
needs (`Instruction.readLine_of_words_append`).  A fault reports a part of the line, either the
first word or the line without the blanks around it; this part is again a line that is no
instruction, with the same report (`Instruction.readLine_fault`).  For the same reason reading a
line and reading what is left of it after trimming are one, fault included
(`Instruction.readLine_trim`).

Blank lines are skipped, so assembling lines is assembling their contents
(`Code.ofLines_contents`), and all that keeps the contents of a text can be done to it: its lines
may end with carriage returns or without, and blank lines may be put in and taken out.
-/
namespace PolishCalc

open Text (words trim IsTrimmed isBlankLine contents lines withReturns)

namespace Instruction

variable {line line' mnemonic : String} {operands operands' more : List String} {i : Instruction}
  {f : Fault}

/-! ## One line -/

/-- Exactly the blank lines hold no instruction. -/
theorem readLine_eq_none_iff : readLine line = .ok none ↔ ∀ c ∈ line.toList, Text.isBlank c := by
  rw [← Text.words_eq_nil_iff, readLine]
  cases words line with
  | nil => exact ⟨fun _ => rfl, fun _ => rfl⟩
  | cons mnemonic operands =>
    refine ⟨fun h => ?_, fun h => absurd h (List.cons_ne_nil _ _)⟩
    obtain ⟨i, -, hi⟩ := map_eq_ok_iff.mp h
    cases hi

/-- Of the words behind the first only the next one is looked at, and of the line what is left of
it after trimming. -/
theorem ofWords_congr (hline : trim line' = trim line) (hhead : operands'.head? = operands.head?) :
    ofWords line' mnemonic operands' = ofWords line mnemonic operands := by
  unfold ofWords
  rw [hline, hhead]

/-- An instruction is read from any line with the same words up to its own last one. -/
theorem ofWords_ok_congr (h : ofWords line mnemonic operands = .ok i)
    (hhead : ∀ x ∈ operands.head?, operands'.head? = some x) :
    ofWords line' mnemonic operands' = .ok i := by
  unfold ofWords at h ⊢
  split at h
  · split at h
    · rename_i v hv
      obtain ⟨x, hx, hvalue⟩ := Option.bind_eq_some_iff.mp hv
      rw [hhead x hx, Option.bind_some, hvalue]
      exact h
    · cases h
  · split at h
    · rename_i name hname
      rw [hhead name hname]
      exact h
    · cases h
  · split at h
    · rename_i name hname
      rw [hhead name hname]
      exact h
    · cases h
  · exact h

/-- **Spacing and further words do not matter** to a line that holds an instruction. -/
theorem readLine_of_words_append (h : readLine line = .ok (some i))
    (hwords : words line' = words line ++ more) : readLine line' = .ok (some i) := by
  unfold readLine at h ⊢
  cases hline : words line with
  | nil =>
    rw [hline] at h
    cases h
  | cons mnemonic operands =>
    rw [hline] at h
    rw [hwords, hline, List.cons_append]
    obtain ⟨j, hj, hi⟩ := map_eq_ok_iff.mp h
    cases hi
    refine map_eq_ok_iff.mpr ⟨i, ofWords_ok_congr hj fun x hx => ?_, rfl⟩
    rw [List.head?_append, Option.mem_def.mp hx, Option.some_or]

/-- **A line is read as what is left of it after trimming,** fault included. -/
theorem readLine_trim (line : String) : readLine (trim line) = readLine line := by
  rw [readLine, readLine, Text.words_trim]
  cases words line with
  | nil => rfl
  | cons mnemonic operands =>
    exact congrArg (Except.map some) (ofWords_congr (Text.trim_trim line) rfl)

/-- A fault is about the line without the blanks around it, or about its first word alone, whatever
stands behind that. -/
theorem ofWords_fault (h : ofWords line mnemonic operands = .error f) :
    f = .illegalInstruction (trim line) ∨
      f = .illegalInstruction mnemonic ∧
        ∀ line' operands', ofWords line' mnemonic operands' = .error f := by
  unfold ofWords at h ⊢
  split at h
  · split at h <;> cases h
    exact .inl rfl
  · split at h <;> cases h
    exact .inl rfl
  · split at h <;> cases h
    exact .inl rfl
  · split at h
    · cases h
    · cases h
      exact .inr ⟨rfl, fun _ _ => rfl⟩

/-- **What a fault reports** is a text without blanks at its ends, which is refused in the same
way. -/
theorem readLine_fault (h : readLine line = .error f) :
    ∃ t, f = .illegalInstruction t ∧ t ≠ "" ∧ IsTrimmed t ∧ readLine t = .error f := by
  have hread := h
  unfold readLine at hread
  cases hline : words line with
  | nil =>
    rw [hline] at hread
    cases hread
  | cons mnemonic operands =>
    rw [hline] at hread
    rcases ofWords_fault (map_eq_error_iff.mp hread) with rfl | ⟨rfl, hall⟩
    · refine ⟨trim line, rfl, ?_, Text.isTrimmed_trim line, (readLine_trim line).trans h⟩
      intro hempty
      rw [Text.trim_eq_empty_iff, ← Text.words_eq_nil_iff, hline] at hempty
      cases hempty
    · have hword : Text.IsWord mnemonic := by
        refine Text.isWord_of_mem_words (s := line) ?_
        rw [hline]
        exact List.mem_cons_self
      refine ⟨mnemonic, rfl, hword.1, hword.isTrimmed, ?_⟩
      rw [readLine, Text.words_of_isWord hword]
      exact map_eq_error_iff.mpr (hall mnemonic [])

end Instruction

/-! ## Many lines -/

namespace Code

/-- **Lines are read as their contents.** -/
theorem ofLines_contents (ls : List String) : ofLines (contents ls) = ofLines ls := by
  induction ls with
  | nil => rfl
  | cons line rest ih =>
    rw [Text.contents_cons, ofLines_cons]
    by_cases h : isBlankLine line
    · rw [if_pos h, ih, Instruction.readLine_eq_none_iff.mpr (Text.isBlankLine_iff.mp h), ok_bind]
      cases ofLines rest <;> rfl
    · rw [if_neg h, ofLines_cons, Instruction.readLine_trim, ih]

/-- Lines with the same contents are the same code, or have the same fault. -/
theorem ofLines_congr {ls ls' : List String} (h : contents ls' = contents ls) :
    ofLines ls' = ofLines ls := by
  rw [← ofLines_contents ls', h, ofLines_contents]

end Code

/-- A machine assembles lines by their contents. -/
theorem Machine.assemble_congr {ls ls' : List String} (h : contents ls' = contents ls)
    (m : Machine) : m.assemble ls' = m.assemble ls := by
  rw [assemble, Code.ofLines_congr h, assemble]

/-- **Instruction text is read by its words.**  A line holds no instruction exactly if it is blank.
If it holds one, so does every line with the same words, or with the same words and more behind
them.  If it is refused, the fault reports a text that is not empty, has no blanks at its ends, and
is refused with the same fault.  And a machine assembles a text with carriage returns in front of
its line feeds as it does without them, and lines with blank ones among them as it does without
these, wherever they are put into the text: with the same fault, if any, and to the same code. -/
theorem instruction_text_is_read_by_its_words :
    (∀ line, Instruction.readLine line = .ok none ↔ ∀ c ∈ line.toList, Text.isBlank c) ∧
    (∀ line i, Instruction.readLine line = .ok (some i) →
      ∀ line' more, words line' = words line ++ more →
        Instruction.readLine line' = .ok (some i)) ∧
    (∀ line f, Instruction.readLine line = .error f →
      ∃ t, f = .illegalInstruction t ∧ t ≠ "" ∧ IsTrimmed t ∧
        Instruction.readLine t = .error f) ∧
    (∀ (m : Machine) (text : String),
      m.assemble (lines (withReturns text)) = m.assemble (lines text)) ∧
    (∀ (m : Machine) (ls ls' : List String),
      ls'.filter (!isBlankLine ·) = ls.filter (!isBlankLine ·) → m.assemble ls' = m.assemble ls) ∧
    (∀ (m : Machine) (front gap back : String), Text.EndsLine front →
      (∀ c ∈ gap.toList, Text.isBlank c) →
        m.assemble (lines (front ++ gap ++ "\n" ++ back)) =
          m.assemble (lines (front ++ back))) := by
  refine ⟨fun _ => Instruction.readLine_eq_none_iff,
    fun _ _ h _ _ => Instruction.readLine_of_words_append h,
    fun _ _ => Instruction.readLine_fault, ?_, ?_, ?_⟩
  · intro m text
    exact Machine.assemble_congr (Text.contents_lines_withReturns text) m
  · intro m ls ls' hsame
    refine Machine.assemble_congr ?_ m
    rw [← Text.contents_filter ls', hsame, Text.contents_filter]
  · intro m front gap back hfront hgap
    exact Machine.assemble_congr (Text.contents_lines_insert hfront hgap back) m

/-- A line that is spaced out and has a word too many; a refused line whose operand is no number;
and code with a bad line behind a carriage return that belongs to its line and behind blank
lines. -/
theorem instruction_text_is_read_by_its_words_of_examples :
    Instruction.readLine "\u2003PUSH\u00a0\t+07 8" = .ok (some (.push 7)) ∧
      Instruction.readLine "PUSH  x" = .error (.illegalInstruction "PUSH  x") ∧
      Machine.assemble {} (lines (withReturns "PUSH 7\r\nSTORE x\nPOP")) =
        ⟨{}, some (.illegalInstruction "POP")⟩ ∧
      Machine.assemble {} ["PUSH 7", " ", "STORE x", "", "\u2028", "POP"] =
        ⟨{}, some (.illegalInstruction "POP")⟩ ∧
      Machine.assemble {} (lines ("PUSH 7\n" ++ "\t\n " ++ "\n" ++ "STORE x")) =
        ⟨{ code := [.push 7, .store "x"] }, none⟩ := by
  obtain ⟨-, hsame, hfault, hreturns, hblank, hinsert⟩ := instruction_text_is_read_by_its_words
  have hspaced := hsame "PUSH +07" (.push 7) (by rfl) "\u2003PUSH\u00a0\t+07 8" ["8"] (by rfl)
  obtain ⟨t, ht, -, -, hrefused⟩ := hfault "  PUSH  x\r" (.illegalInstruction "PUSH  x") (by rfl)
  cases ht
  have hgap : ∀ c ∈ "\t\n ".toList, Text.isBlank c := List.all_eq_true.mp rfl
  refine ⟨hspaced, hrefused, (hreturns {} _).trans (by decide +kernel), ?_, ?_⟩
  · exact (hblank {} ["PUSH 7", "STORE x", "POP"] _ (by decide)).trans (by decide +kernel)
  · exact (hinsert {} "PUSH 7\n" "\t\n " "STORE x" (.inr ⟨"PUSH 7", rfl⟩) hgap).trans
      (by decide +kernel)

end PolishCalc
