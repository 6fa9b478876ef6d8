import PolishCalc.Proofs.Listing
import PolishCalc.Proofs.MachineHistory

/-! # Instructions and their lines determine each other

Writing an instruction and reading its line are two separate rules, and they fit together on a
set of instructions that can be named exactly: those without a name, and those whose name is a
word.  A name that is read is a word (`Instruction.isWord_of_readLine`), and an instruction whose
name is a word is read back from its line (`Instruction.readLine_text`).  So reading leads into
this set, and within it nothing is lost by writing.

The same holds of code and its listing.  A machine that was made empty gets code by assembling
only, whatever else it is asked to do, so the names in its code are words
(`Machine.isWord_of_mem_names_after`), and its listing is a text of exactly that code.
-/
namespace PolishCalc

open Text (IsWord)

namespace Instruction

/-- **An instruction is read back from its line** exactly if its name, should it have one, is a
word. -/
theorem readLine_text_iff {i : Instruction} :
    readLine i.text = .ok (some i) ↔ ∀ name ∈ i.name?, IsWord name :=
  ⟨isWord_of_readLine, readLine_text⟩

theorem onLine?_eq_some_iff {line : String} {i : Instruction} :
    onLine? line = some i ↔ readLine line = .ok (some i) := by
  rw [onLine?]
  cases readLine line with
  | ok read => simp
  | error f => simp

end Instruction

namespace Code

/-- **Code is read back from its listing** exactly if its names are words. -/
theorem ofLines_listing_iff {c : Code} :
    ofLines (Text.lines c.listing) = .ok c ↔ ∀ name ∈ c.names, IsWord name :=
  ⟨isWord_of_ofLines, ofLines_listing⟩

theorem isWord_of_onLines {ls : List String} : ∀ name ∈ (onLines ls).names, IsWord name := by
  intro name hn
  obtain ⟨i, hi, hin⟩ := mem_names.mp hn
  obtain ⟨line, -, hline⟩ := List.mem_filterMap.mp hi
  exact Instruction.isWord_of_readLine (Instruction.onLine?_eq_some_iff.mp hline) name hin

end Code

/-- **The names in the code of a machine are words,** whatever calls it has answered. -/
theorem Machine.isWord_of_mem_names_after (calls : List Call) :
    ∀ name ∈ (Machine.after {} calls).code.names, IsWord name := by
  intro name hn
  obtain ⟨i, hi, hin⟩ := Code.mem_names.mp hn
  rw [Machine.code_after, List.mem_append] at hi
  rcases hi with hi | hi
  · exact absurd hi List.not_mem_nil
  · obtain ⟨ls, -, hls⟩ := List.mem_flatMap.mp hi
    exact Code.isWord_of_onLines name (Code.mem_names.mpr ⟨i, hls, hin⟩)

/-- **Instructions and their lines.**  An instruction is read back from its line if and only if
it has no name or its name is a word, and every instruction that is read from any line is of
this kind.  And the listing of a machine, after any calls to a new one, assembles on another new
machine to the same code, which has the same listing. -/
theorem instructions_determine_their_lines :
    (∀ i : Instruction,
      Instruction.readLine i.text = .ok (some i) ↔ ∀ name ∈ i.name?, IsWord name) ∧
    (∀ line i, Instruction.readLine line = .ok (some i) → ∀ name ∈ i.name?, IsWord name) ∧
    (∀ calls : List Call,
      let m := Machine.after {} calls
      let again := Machine.assemble {} (Text.lines m.code.listing)
      again.fault = none ∧ again.state = { code := m.code } ∧
        again.state.code.listing = m.code.listing) := by
  refine ⟨fun i => Instruction.readLine_text_iff, fun line i => Instruction.isWord_of_readLine, ?_⟩
  intro calls m again
  have hread : Code.ofLines (Text.lines m.code.listing) = .ok m.code :=
    Code.ofLines_listing_iff.mpr (Machine.isWord_of_mem_names_after calls)
  have hagain : again = ⟨{ code := m.code }, none⟩ := by
    show Machine.assemble {} (Text.lines m.code.listing) = _
    rw [Machine.assemble, hread]
    rfl
  rw [hagain]
  exact ⟨rfl, rfl, rfl⟩

/-- A name that looks empty and is a word, and one that a line separator cuts in two; and a
machine whose code came from three assemble calls, one of which failed. -/
theorem instructions_determine_their_lines_of_odd_names :
    let calls : List Call :=
      [.assemble ["PUSH 1", "JMP 4"], .assemble ["  PUSH -02147483648 \r", "", "STORE\u3000x y"],
        .execute, .step (.store "a b"), .assemble ["LOAD \u200b"]]
    let m := Machine.after {} calls
    Instruction.readLine (Instruction.load "\u200b\u0000").text = .ok (some (.load "\u200b\u0000")) ∧
      Instruction.readLine (Instruction.store "a\u2028b").text ≠ .ok (some (.store "a\u2028b")) ∧
      m.code.listing = "PUSH -2147483648\nSTORE x\nLOAD \u200b\n" ∧
      (Machine.assemble {} (Text.lines m.code.listing)).state =
        { code := [.push (-2147483648), .store "x", .load "\u200b"] } := by
  intro calls m
  obtain ⟨hread, -, hlisting⟩ := instructions_determine_their_lines
  have hodd : ∀ name ∈ (Instruction.load "\u200b\u0000").name?, IsWord name := by decide
  have hcut : ¬ ∀ name ∈ (Instruction.store "a\u2028b").name?, IsWord name := by decide
  have hcode : m.code = [.push (-2147483648), .store "x", .load "\u200b"] := by decide +kernel
  refine ⟨(hread _).mpr hodd, fun h => hcut ((hread _).mp h), by decide +kernel, ?_⟩
  rw [(hlisting calls).2.1]
  exact congrArg (fun c => ({ code := c } : Machine)) hcode

end PolishCalc
