import PolishCalc.Lowering
import PolishCalc.Machine
import PolishCalc.Text.Trimming

/-! # Code survives its text

Between the compiler and the machine code is text: an instruction is printed on a
line, and the line is cut into words again.  A number always comes back.  A name
comes back when it is a word, and only then: of a name with blanks in it the first word
is read, and a name without a word leaves no operand at all, so that its line is refused
(`Instruction.readLine_text_eq`, `Code.ofLines_lines_eq`).  So code whose names are words
is read back as it was (`Code.ofLines_lines`), and the names of compiled code are those of
the program, neither more nor fewer (`Program.mem_names_lower`).
-/
namespace PolishCalc

open Text (words wordsOf trim IsWord)

/-! ## One line -/

/-- A word and a space in front of a text are one more word. -/
theorem Text.words_append_space {w : String} (hw : IsWord w) (s : String) :
    words (w ++ " " ++ s) = w :: words s := by
  have hspace : ∀ c ∈ " ".toList, Text.isBlank c := List.all_eq_true.mp rfl
  rw [words_append_blanks (by decide) hspace, words_of_isWord hw, List.singleton_append]

/-- The first word of a text, if there is one. -/
def Text.firstWord (s : String) : String := (words s).headD ""

/-- A word is a text that is its own first word. -/
theorem Text.isWord_iff {s : String} : IsWord s ↔ words s ≠ [] ∧ firstWord s = s := by
  constructor
  · intro h
    rw [firstWord, words_of_isWord h]
    exact ⟨List.cons_ne_nil _ _, rfl⟩
  · rintro ⟨hne, hfirst⟩
    obtain ⟨w, rest, hw⟩ := List.exists_cons_of_ne_nil hne
    have hs : w = s := by rwa [firstWord, hw] at hfirst
    refine isWord_of_mem_words (s := s) ?_
    rw [hw, hs]
    exact List.mem_cons_self

namespace Instruction

/-- The word that an instruction's line starts with. -/
def mnemonic : Instruction → String
  | push _ => "PUSH"
  | store _ => "STORE"
  | load _ => "LOAD"
  | print => "PRINT"
  | unary op => op.mnemonic
  | binary op => op.mnemonic

/-- What stands behind the first word, if anything. -/
def operand? : Instruction → Option String
  | push v => some (Numeral.text v)
  | store name => some name
  | load name => some name
  | print | unary _ | binary _ => none

theorem isWord_mnemonic (i : Instruction) : IsWord i.mnemonic := by
  cases i with
  | push v => exact (by decide : IsWord "PUSH")
  | store name => exact (by decide : IsWord "STORE")
  | load name => exact (by decide : IsWord "LOAD")
  | print => decide
  | unary op | binary op => cases op <;> decide

theorem text_of_operand {i : Instruction} {x : String} (h : i.operand? = some x) :
    i.text = i.mnemonic ++ " " ++ x := by
  cases i with
  | push v | store name | load name =>
    cases h
    rfl
  | print | unary op | binary op => cases h

theorem text_of_no_operand {i : Instruction} (h : i.operand? = none) : i.text = i.mnemonic := by
  cases i with
  | push v | store name | load name => cases h
  | print | unary op | binary op => rfl

/-- The words of an instruction's line.  An operand that is no word is cut into those
that it has. -/
theorem words_text (i : Instruction) :
    words i.text = i.mnemonic :: i.operand?.toList.flatMap words := by
  cases h : i.operand? with
  | none => rw [text_of_no_operand h, Text.words_of_isWord i.isWord_mnemonic]; rfl
  | some x => rw [text_of_operand h, Text.words_append_space i.isWord_mnemonic]; simp

/-- An instruction is known by the first word of its line and the operand behind it. -/
theorem ofWords_operand (line : String) (i : Instruction) :
    ofWords line i.mnemonic i.operand?.toList = .ok i := by
  cases i with
  | push v =>
    simp only [mnemonic, operand?, ofWords, Option.toList_some, List.head?_cons, Option.bind_some,
      Numeral.value?_text]
  | store name | load name | print => rfl
  | unary op | binary op => cases op <;> rfl

/-- An operand is a word if it is not a name, or a name that is one. -/
theorem isWord_operand {i : Instruction} (h : ∀ name ∈ i.name?, IsWord name) :
    ∀ x ∈ i.operand?, IsWord x := by
  intro x hx
  cases i with
  | push v =>
    cases hx
    exact Numeral.isWord_text v
  | store name | load name => exact h x hx
  | print | unary op | binary op => cases hx

/-- **An instruction is read back from its line** if its name, should it have one,
is a word. -/
theorem readLine_text {i : Instruction} (h : ∀ name ∈ i.name?, IsWord name) :
    readLine i.text = .ok (some i) := by
  have hwords : i.operand?.toList.flatMap words = i.operand?.toList := by
    cases hx : i.operand? with
    | none => rfl
    | some x => simpa using Text.words_of_isWord (isWord_operand h x hx)
  rw [readLine, words_text, hwords]
  show (ofWords _ _ _).map some = _
  rw [ofWords_operand]
  rfl

theorem ne_append_space (s x : String) : s ≠ s ++ " " ++ x := by
  intro h
  have hspace : (" " : String).length = 1 := rfl
  have hlength := congrArg String.length h
  rw [String.length_append, String.length_append, hspace] at hlength
  omega

/-- **Instructions with one line are one instruction,** whatever their names. -/
theorem text_injective {i j : Instruction} (h : i.text = j.text) : i = j := by
  have hmnemonic : i.mnemonic = j.mnemonic := by
    have hwords := congrArg words h
    rw [words_text, words_text] at hwords
    exact (List.cons.inj hwords).1
  have hoperand : i.operand? = j.operand? := by
    cases hi : i.operand? with
    | none =>
      cases hj : j.operand? with
      | none => rfl
      | some y =>
        rw [text_of_no_operand hi, text_of_operand hj, hmnemonic] at h
        exact absurd h (ne_append_space _ y)
    | some x =>
      cases hj : j.operand? with
      | none =>
        rw [text_of_operand hi, text_of_no_operand hj, hmnemonic] at h
        exact absurd h.symm (ne_append_space _ x)
      | some y =>
        rw [text_of_operand hi, text_of_operand hj, hmnemonic] at h
        exact congrArg some ((String.append_right_inj _).mp h)
  have hread := ofWords_operand "" i
  rw [hmnemonic, hoperand, ofWords_operand] at hread
  exact (Except.ok.inj hread).symm

/-- The same instruction with another name, should it have one. -/
def rename (f : String → String) : Instruction → Instruction
  | store name => store (f name)
  | load name => load (f name)
  | i => i

/-- The instruction has a name without a word, so that its line shows no operand. -/
def lacksName (i : Instruction) : Bool := i.name?.any fun name => (words name).isEmpty

theorem lacksName_iff {i : Instruction} : i.lacksName ↔ ∃ name ∈ i.name?, words name = [] := by
  simp [lacksName, Option.any_eq_true]

theorem rename_eq_self_iff {f : String → String} {i : Instruction} :
    i.rename f = i ↔ ∀ name ∈ i.name?, f name = name := by
  cases i <;> simp [rename, name?]

/-- A line that ends in blanks is reported by its first word. -/
theorem trim_text_of_blank {i : Instruction} {name : String} (hoperand : i.operand? = some name)
    (hblank : words name = []) : trim i.text = i.mnemonic := by
  rw [text_of_operand hoperand, String.append_assoc, Text.trim_append_blanks,
    i.isWord_mnemonic.isTrimmed.trim_eq]
  intro c hc
  rw [String.toList_append, List.mem_append] at hc
  rcases hc with hspace | hname
  · obtain rfl : c = ' ' := by simpa using hspace
    rfl
  · exact Text.isBlank_of_words_eq_nil hblank c hname

/-- **What is read from any instruction's line:** the instruction with its name, should it
have one, cut to the first word; or, if the name has no word, the fault of the bare first
word of the line. -/
theorem readLine_text_eq (i : Instruction) :
    readLine i.text =
      if i.lacksName then .error (.illegalInstruction i.mnemonic)
      else .ok (some (i.rename Text.firstWord)) := by
  cases i with
  | push v | print | unary op | binary op => exact readLine_text nofun
  | store name | load name =>
    rw [readLine, words_text, operand?, Option.toList_some, List.flatMap_singleton, lacksName,
      name?, Option.any_some, rename, Text.firstWord]
    cases hw : words name with
    | nil =>
      show Except.map some (Except.error (Fault.illegalInstruction (trim _))) = _
      rw [trim_text_of_blank rfl hw]
      rfl
    | cons w rest => rfl

end Instruction

/-! ## Many lines -/

namespace Code

@[simp] theorem ofLines_nil : ofLines [] = .ok [] := rfl

/-- Lines are read in order; a blank one adds nothing. -/
theorem ofLines_cons (line : String) (rest : List String) :
    ofLines (line :: rest) =
      Instruction.readLine line >>= fun i => (ofLines rest).map fun c => i.toList ++ c := by
  rw [ofLines, List.mapM_cons]
  cases Instruction.readLine line with
  | error f => rfl
  | ok i =>
    rw [ofLines]
    cases rest.mapM Instruction.readLine with
    | error f => cases i <;> rfl
    | ok is => cases i <;> rfl

theorem ofLines_cons_eq_ok_iff {line : String} {rest : List String} {c : Code} :
    ofLines (line :: rest) = .ok c ↔
      ∃ i c', Instruction.readLine line = .ok i ∧ ofLines rest = .ok c' ∧ c = i.toList ++ c' := by
  rw [ofLines_cons, bind_eq_ok_iff]
  constructor
  · rintro ⟨i, hline, h⟩
    obtain ⟨c', hrest, rfl⟩ := map_eq_ok_iff.mp h
    exact ⟨i, c', hline, hrest, rfl⟩
  · rintro ⟨i, c', hline, hrest, rfl⟩
    exact ⟨i, hline, map_eq_ok_iff.mpr ⟨c', hrest, rfl⟩⟩

theorem ofLines_cons_eq_error_iff {line : String} {rest : List String} {f : Fault} :
    ofLines (line :: rest) = .error f ↔
      Instruction.readLine line = .error f ∨
        (∃ i, Instruction.readLine line = .ok i) ∧ ofLines rest = .error f := by
  rw [ofLines_cons, bind_eq_error_iff, ← exists_and_right]
  exact or_congr Iff.rfl (exists_congr fun i => and_congr Iff.rfl map_eq_error_iff)

/-- **What is read from the lines of code:** the code with its names cut to their first
words; or, if there are names without a word, the fault of the first of them. -/
theorem ofLines_lines_eq (c : Code) :
    ofLines c.lines =
      match c.find? Instruction.lacksName with
      | some i => .error (.illegalInstruction i.mnemonic)
      | none => .ok (c.map (Instruction.rename Text.firstWord)) := by
  induction c with
  | nil => exact ofLines_nil
  | cons i rest ih =>
    rw [lines, List.map_cons, ← lines, ofLines_cons, Instruction.readLine_text_eq, ih,
      List.find?_cons]
    cases i.lacksName with
    | true => rfl
    | false => cases rest.find? Instruction.lacksName <;> rfl

theorem mem_names {c : Code} {name : String} : name ∈ c.names ↔ ∃ i ∈ c, name ∈ i.name? :=
  List.mem_filterMap

theorem find?_lacksName_eq_none_iff {c : Code} :
    c.find? Instruction.lacksName = none ↔ ∀ name ∈ c.names, words name ≠ [] := by
  rw [List.find?_eq_none]
  constructor
  · intro h name hn hblank
    obtain ⟨i, hi, hin⟩ := mem_names.mp hn
    exact h i hi (Instruction.lacksName_iff.mpr ⟨name, hin, hblank⟩)
  · intro h i hi hlacks
    obtain ⟨name, hn, hblank⟩ := Instruction.lacksName_iff.mp hlacks
    exact h name (mem_names.mpr ⟨i, hi, hn⟩) hblank

/-- A renaming changes code by changing its names. -/
theorem map_rename_eq_self_iff {f : String → String} {c : Code} :
    c.map (Instruction.rename f) = c ↔ ∀ name ∈ c.names, f name = name := by
  have hmap : c.map (Instruction.rename f) = c ↔ ∀ i ∈ c, i.rename f = i := by
    simpa using List.map_inj_left (f := Instruction.rename f) (g := id) (l := c)
  rw [hmap]
  simp only [Instruction.rename_eq_self_iff, mem_names]
  constructor
  · rintro h name ⟨i, hi, hn⟩
    exact h i hi name hn
  · intro h i hi name hn
    exact h name ⟨i, hi, hn⟩

/-- **Code whose names are words is read back from its lines.** -/
theorem ofLines_lines {c : Code} (h : ∀ name ∈ c.names, IsWord name) :
    ofLines c.lines = .ok c := by
  have hfind := find?_lacksName_eq_none_iff.mpr fun name hn => (Text.isWord_iff.mp (h name hn)).1
  have hsame := map_rename_eq_self_iff.mpr fun name hn => (Text.isWord_iff.mp (h name hn)).2
  rw [ofLines_lines_eq, hfind, hsame]

/-- Code that is read from the lines of code has the names cut to their first words. -/
theorem eq_map_of_ofLines_lines {c c' : Code} (h : ofLines c.lines = .ok c') :
    c' = c.map (Instruction.rename Text.firstWord) := by
  rw [ofLines_lines_eq] at h
  split at h
  · cases h
  · exact (Except.ok.inj h).symm

/-- Code with the same lines is the same code. -/
theorem lines_injective {c c' : Code} (h : c.lines = c'.lines) : c = c' :=
  (List.map_inj_right fun _ _ => Instruction.text_injective).mp h

@[simp] theorem names_append (front back : Code) :
    names (front ++ back) = names front ++ names back :=
  List.filterMap_append

end Code

/-! ## The names of lowered code -/

/-- The code of an expression loads the variables in the order in which they are
read. -/
@[simp] theorem Expr.names_lower (e : Expr) : e.lower.names = e.names := by
  induction e with
  | const v => rfl
  | var name => rfl
  | unary op e ih =>
    rw [lower_unary, Code.names_append, ih]
    exact List.append_nil _
  | binary op l r ihl ihr =>
    rw [lower_binary, Code.names_append, Code.names_append, ihl, ihr]
    exact List.append_nil _

/-- A statement's code has the statement's names; it stores last what is written
first. -/
theorem Statement.mem_names_lower {a : Statement} {name : String} :
    name ∈ a.lower.names ↔ name ∈ a.names := by
  rw [lower_eq, Code.names_append, Expr.names_lower]
  cases a with
  | assign target e => simp [names, target?, value, last, Code.names, Instruction.name?, or_comm]
  | print e => simp [names, target?, value, last, Code.names, Instruction.name?]

theorem Program.mem_names_lower {p : Program} {name : String} :
    name ∈ p.lower.names ↔ name ∈ p.names := by
  induction p with
  | nil => exact Iff.rfl
  | cons a rest ih =>
    rw [lower_cons, names_cons, Code.names_append, List.mem_append, List.mem_append,
      Statement.mem_names_lower, ih]

/-- **Compiled programs assemble.**  A new machine takes the lines of a program
whose names are words, and then holds the program's code and nothing else. -/
theorem Program.assemble_compile {p : Program} (h : ∀ name ∈ p.names, IsWord name) :
    Machine.assemble {} p.compile = ⟨{ code := p.lower }, none⟩ := by
  have hc : Code.ofLines p.compile = .ok p.lower :=
    Code.ofLines_lines fun name hn => h name (mem_names_lower.mp hn)
  rw [Machine.assemble, hc]
  rfl

end PolishCalc
