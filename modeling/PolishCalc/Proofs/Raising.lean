import PolishCalc.Proofs.InstructionText

/-! # From code back to programs

Lowered code can be read back.  Executing it on expressions in place of numbers, each
instruction builds the tree that it stands for: an operator takes its operands off the
stack of expressions and puts the larger expression there, and an instruction that uses a
value completes a statement.  Nothing is guessed on the way, so this raising of code is
inverse to lowering, in both directions (`Code.raise_eq_some_iff`), and two programs with
one code are one program.

Which code can be raised depends on the depth of the stack alone.  `Code.Balanced` scans
for it: operators have to find their operands, and a statement may only end on a stack of
exactly one value.  The scan is the raising, seen with depths in place of expressions.
-/
namespace PolishCalc

open Text (IsWord)

/-! ## Raising -/

/-- What code stands for, as far as it was raised. -/
structure Raised where
  /-- The statements that are complete, the latest first. -/
  done : Program := []
  /-- The expressions on the stack, the top first. -/
  pending : List Expr := []

namespace Raised

/-- Raise one more instruction.  A statement ends on a stack of one expression only. -/
def next (r : Raised) : Instruction → Option Raised
  | .push v => some { r with pending := .const v :: r.pending }
  | .load name => some { r with pending := .var name :: r.pending }
  | .unary op =>
    match r.pending with
    | e :: rest => some { r with pending := .unary op e :: rest }
    | _ => none
  | .binary op =>
    match r.pending with
    | e :: l :: rest => some { r with pending := .binary op l e :: rest }
    | _ => none
  | .store name =>
    match r.pending with
    | [e] => some ⟨.assign name e :: r.done, []⟩
    | _ => none
  | .print =>
    match r.pending with
    | [e] => some ⟨.print e :: r.done, []⟩
    | _ => none

/-- Raise code. -/
def nextAll (r : Raised) (c : Code) : Option Raised := c.foldlM next r

/-- The code that was raised so far. -/
def code (r : Raised) : Code :=
  Program.lower r.done.reverse ++ r.pending.reverse.flatMap Expr.lower

theorem nextAll_cons (r : Raised) (i : Instruction) (c : Code) :
    r.nextAll (i :: c) = (r.next i).bind fun r' => r'.nextAll c := rfl

theorem nextAll_append (r : Raised) (front back : Code) :
    r.nextAll (front ++ back) = (r.nextAll front).bind fun r' => r'.nextAll back :=
  List.foldlM_append

theorem nextAll_singleton (r : Raised) (i : Instruction) : r.nextAll [i] = r.next i := by
  rw [nextAll_cons]
  cases r.next i <;> rfl

/-! ## What was lowered is raised -/

theorem nextAll_lower (r : Raised) (e : Expr) :
    r.nextAll e.lower = some { r with pending := e :: r.pending } := by
  induction e generalizing r with
  | const v => rfl
  | var name => rfl
  | unary op e ih =>
    rw [Expr.lower_unary, nextAll_append, ih, Option.bind_some, nextAll_singleton]
    rfl
  | binary op l r ihl ihr =>
    rw [Expr.lower_binary, nextAll_append, nextAll_append, ihl, Option.bind_some, ihr,
      Option.bind_some, nextAll_singleton]
    rfl

theorem nextAll_lower_statement (done : Program) (a : Statement) :
    nextAll ⟨done, []⟩ a.lower = some ⟨a :: done, []⟩ := by
  rw [Statement.lower_eq, nextAll_append, nextAll_lower, Option.bind_some, nextAll_singleton]
  cases a <;> rfl

theorem nextAll_lower_program (done p : Program) :
    nextAll ⟨done, []⟩ p.lower = some ⟨p.reverse ++ done, []⟩ := by
  induction p generalizing done with
  | nil => rfl
  | cons a rest ih =>
    rw [Program.lower_cons, nextAll_append, nextAll_lower_statement, Option.bind_some, ih,
      List.reverse_cons, List.append_assoc]
    rfl

/-! ## What is raised was lowered -/

/-- Raising an instruction adds it to the code that was raised. -/
theorem code_of_next {r r' : Raised} {i : Instruction} (h : r.next i = some r') :
    r'.code = r.code ++ [i] := by
  obtain ⟨done, pending⟩ := r
  cases i with
  | push v | load name =>
    cases h
    simp [code]
  | unary op =>
    rcases pending with - | ⟨e, rest⟩ <;> cases h
    simp [code]
  | binary op =>
    rcases pending with - | ⟨e, - | ⟨l, rest⟩⟩ <;> cases h
    simp [code]
  | store name | print =>
    rcases pending with - | ⟨e, - | ⟨l, rest⟩⟩ <;> cases h
    simp [code, Program.lower, Statement.lower_eq, Statement.value, Statement.last]

theorem code_of_nextAll {r r' : Raised} {c : Code} (h : r.nextAll c = some r') :
    r'.code = r.code ++ c := by
  induction c generalizing r with
  | nil =>
    cases h
    simp
  | cons i rest ih =>
    rw [nextAll_cons, Option.bind_eq_some_iff] at h
    obtain ⟨next, hnext, hrest⟩ := h
    rw [ih hrest, code_of_next hnext, List.append_assoc]
    rfl

end Raised

namespace Code

/-- **Raising is inverse to lowering.** -/
theorem raise_eq_some_iff {c : Code} {p : Program} :
    Raised.nextAll {} c = some ⟨p.reverse, []⟩ ↔ p.lower = c := by
  constructor
  · intro h
    simpa [Raised.code, Program.lower] using Raised.code_of_nextAll h
  · rintro rfl
    rw [Raised.nextAll_lower_program, List.append_nil]

end Code

/-- **Programs with the same code are the same program.** -/
theorem Program.lower_injective {p q : Program} (h : p.lower = q.lower) : p = q := by
  have hp := Code.raise_eq_some_iff.mpr h
  rw [Code.raise_eq_some_iff.mpr rfl] at hp
  simpa using hp.symm

/-! ## Balanced code -/

/-- The depth behind an instruction that is found at depth `d`, if it may stand there. -/
def Instruction.balance (d : Nat) : Instruction → Option Nat
  | push _ | load _ => some (d + 1)
  | unary _ => if 1 ≤ d then some d else none
  | binary _ => if 2 ≤ d then some (d - 1) else none
  | print | store _ => if d = 1 then some 0 else none

namespace Code

/-- The depth behind code, from depth `d` on. -/
def balanceFrom (d : Nat) (c : Code) : Option Nat := c.foldlM Instruction.balance d

/-- Code that starts and ends with an empty stack, in which operators find their operands
and statements end on one value. -/
def Balanced (c : Code) : Prop := c.balanceFrom 0 = some 0

instance (c : Code) : Decidable c.Balanced := inferInstanceAs (Decidable (_ = _))

/-- The depth is that of the stack of expressions, instruction by instruction. -/
theorem balance_eq (r : Raised) (i : Instruction) :
    i.balance r.pending.length = (r.next i).map fun r' => r'.pending.length := by
  obtain ⟨done, pending⟩ := r
  cases i with
  | push v | load name => rfl
  | unary op => cases pending <;> rfl
  | binary op =>
    match pending with
    | [] | [_] => rfl
    | _ :: _ :: _ => rfl
  | store name | print =>
    match pending with
    | [] | [_] => rfl
    | _ :: _ :: _ => rfl

theorem balanceFrom_eq (r : Raised) (c : Code) :
    c.balanceFrom r.pending.length = (r.nextAll c).map fun r' => r'.pending.length := by
  induction c generalizing r with
  | nil => rfl
  | cons i rest ih =>
    show (i.balance r.pending.length).bind (fun d => balanceFrom d rest) = _
    rw [balance_eq, Raised.nextAll_cons]
    cases r.next i with
    | none => rfl
    | some r' => exact ih r'

/-- **The balanced code is the code of programs.** -/
theorem balanced_iff_exists_lower {c : Code} : c.Balanced ↔ ∃ p : Program, p.lower = c := by
  have hdepth : c.balanceFrom 0 = (Raised.nextAll {} c).map fun r => r.pending.length :=
    balanceFrom_eq {} c
  rw [Balanced, hdepth, Option.map_eq_some_iff]
  constructor
  · -- Depth zero at the end: no expression waits, so all that was raised is statements.
    rintro ⟨⟨done, pending⟩, hraised, hlength⟩
    have hnil : pending = [] := List.length_eq_zero_iff.mp hlength
    refine ⟨done.reverse, raise_eq_some_iff.mp ?_⟩
    rw [List.reverse_reverse, hraised, hnil]
  · rintro ⟨p, rfl⟩
    exact ⟨⟨p.reverse, []⟩, raise_eq_some_iff.mpr rfl, rfl⟩

/-- Balance does not depend on the names. -/
theorem balanced_map_rename (f : String → String) (c : Code) :
    Balanced (c.map (Instruction.rename f)) ↔ c.Balanced := by
  have hbalance (d : Nat) (i : Instruction) : (i.rename f).balance d = i.balance d := by
    cases i <;> rfl
  rw [Balanced, Balanced, balanceFrom, balanceFrom, List.foldlM_map]
  simp only [hbalance]

end Code

/-! ## What compiling can give -/

namespace Program

theorem compile_injective {p q : Program} (h : p.compile = q.compile) : p = q :=
  lower_injective (Code.lines_injective h)

/-- Code that was assembled from a compiled program is balanced, whatever the names: the
lines cut the names short and nothing else. -/
theorem balanced_of_assemble {p : Program} {c : Code}
    (h : Machine.assemble {} p.compile = ⟨{ code := c }, none⟩) : c.Balanced := by
  rcases Machine.assemble_cases {} p.compile with ⟨c', hread, hc'⟩ | ⟨f, -, hf⟩
  · rw [hc'] at h
    have hcode : c' = c := congrArg (fun o => o.state.code) h
    rw [← hcode, Code.eq_map_of_ofLines_lines hread, Code.balanced_map_rename]
    exact Code.balanced_iff_exists_lower.mpr ⟨p, rfl⟩
  · rw [hf] at h
    cases h

/-- A program whose names are words assembles to the code that it is lowered to. -/
theorem assemble_compile_eq_iff {p : Program} (words : ∀ name ∈ p.names, IsWord name) {c : Code} :
    Machine.assemble {} p.compile = ⟨{ code := c }, none⟩ ↔ p.lower = c := by
  rw [assemble_compile words]
  refine ⟨fun h => congrArg (fun o => o.state.code) h, ?_⟩
  rintro rfl
  rfl

end Program

/-- **Compiling loses nothing, and gives exactly the balanced code.**  Programs with the
same lines are the same program, whatever their names.  And for code whose names are words
there is a program that assembles to it if and only if the code is balanced; among the
programs whose names are words there is then exactly one. -/
theorem compile_gives_balanced_code :
    (∀ p q : Program, p.compile = q.compile → p = q) ∧
    (∀ c : Code, (∀ name ∈ c.names, IsWord name) →
      ((∃ p : Program, Machine.assemble {} p.compile = ⟨{ code := c }, none⟩) ↔ c.Balanced) ∧
      (c.Balanced →
        ∃ p : Program,
          ((∀ name ∈ p.names, IsWord name) ∧
            Machine.assemble {} p.compile = ⟨{ code := c }, none⟩) ∧
          ∀ q : Program, (∀ name ∈ q.names, IsWord name) →
            Machine.assemble {} q.compile = ⟨{ code := c }, none⟩ → q = p)) := by
  refine ⟨fun p q => Program.compile_injective, ?_⟩
  intro c hnames
  have hraised (balanced : c.Balanced) :
      ∃ p : Program, (∀ name ∈ p.names, IsWord name) ∧ p.lower = c := by
    obtain ⟨p, rfl⟩ := Code.balanced_iff_exists_lower.mp balanced
    exact ⟨p, fun name hn => hnames name (Program.mem_names_lower.mpr hn), rfl⟩
  refine ⟨⟨?_, ?_⟩, ?_⟩
  · -- Here `p` may have names that are no words.
    rintro ⟨p, hp⟩
    exact Program.balanced_of_assemble hp
  · intro balanced
    obtain ⟨p, words, hlower⟩ := hraised balanced
    exact ⟨p, (Program.assemble_compile_eq_iff words).mpr hlower⟩
  · intro balanced
    obtain ⟨p, words, hlower⟩ := hraised balanced
    refine ⟨p, ⟨words, (Program.assemble_compile_eq_iff words).mpr hlower⟩, ?_⟩
    intro q hq hassemble
    refine Program.lower_injective ?_
    rw [(Program.assemble_compile_eq_iff hq).mp hassemble, hlower]

/-- Balanced code of two statements, with the one program that it comes from; and code that
executes without a fault and is that of no program, because it prints from a stack of two
values. -/
theorem compile_gives_balanced_code_of_two_statements :
    let balanced : Code := [.load "a", .push 2, .binary .mul, .store "b", .load "b", .print]
    let source : Program := [.assign "b" (.binary .mul (.var "a") (.const 2)), .print (.var "b")]
    let unbalanced : Code := [.push 1, .push 2, .print, .print]
    (∀ p : Program, (∀ name ∈ p.names, IsWord name) →
        Machine.assemble {} p.compile = ⟨{ code := balanced }, none⟩ → p = source) ∧
      (Machine.execute { code := unbalanced }).fault = none ∧
      ¬ ∃ p : Program, Machine.assemble {} p.compile = ⟨{ code := unbalanced }, none⟩ := by
  intro balanced source unbalanced
  obtain ⟨-, hunique⟩ := compile_gives_balanced_code.2 balanced (by decide)
  obtain ⟨hunbalanced, -⟩ := compile_gives_balanced_code.2 unbalanced (by decide)
  obtain ⟨p, -, hp⟩ := hunique (by decide)
  have hsource : source = p := hp source (by decide) (by decide +kernel)
  refine ⟨?_, by decide, fun h => absurd (hunbalanced.mp h) (by decide)⟩
  intro q hq hassemble
  rw [hsource]
  exact hp q hq hassemble

end PolishCalc
