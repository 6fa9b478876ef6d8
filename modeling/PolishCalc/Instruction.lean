import PolishCalc.Operator
import PolishCalc.Text.Lines
import PolishCalc.Text.Numeral
import PolishCalc.Text.Words

/-! # Instructions and their text

An instruction of the stack machine is written on a line of its own: its name
and, for three of them, an operand.  Code travels between the compiler and the
machine in this form only.  Reading a line looks at its words; words after those
that an instruction needs are ignored.
-/
namespace PolishCalc

open Text (words trim joinLines)

/-- One instruction of the stack machine. -/
inductive Instruction where
  /-- Put a number on the stack. -/
  | push (value : Int32)
  /-- Take the top value and bind a name to it. -/
  | store (name : String)
  /-- Put the value of a variable on the stack. -/
  | load (name : String)
  /-- Take the top value and print it. -/
  | print
  /-- Apply an operator to the top value. -/
  | unary (op : UnaryOp)
  /-- Apply an operator to the two top values. -/
  | binary (op : BinaryOp)
deriving DecidableEq, Repr

namespace Instruction

/-- The line that stands for an instruction. -/
def text : Instruction → String
  | push v => "PUSH " ++ Numeral.text v
  | store name => "STORE " ++ name
  | load name => "LOAD " ++ name
  | print => "PRINT"
  | unary op => op.mnemonic
  | binary op => op.mnemonic

/-- The name that an instruction moves a value to or from. -/
def name? : Instruction → Option String
  | store name => some name
  | load name => some name
  | _ => none

/-- The instruction whose name is the whole of it. -/
def ofMnemonic? (mnemonic : String) : Option Instruction :=
  if mnemonic = "PRINT" then some print
  else (UnaryOp.ofMnemonic? mnemonic).map unary <|>
    (BinaryOp.ofMnemonic? mnemonic).map binary

/-- The instruction that is read from the words of `line`: its name, and the words
after it.  An operand that is missing or no number condemns the whole line, an
unknown name only itself. -/
def ofWords (line mnemonic : String) (operands : List String) : Except Fault Instruction :=
  let malformed := Fault.illegalInstruction (trim line)
  match mnemonic with
  | "PUSH" =>
    match operands.head?.bind Numeral.value? with
    | some v => .ok (push v)
    | none => .error malformed
  | "STORE" =>
    match operands.head? with
    | some name => .ok (store name)
    | none => .error malformed
  | "LOAD" =>
    match operands.head? with
    | some name => .ok (load name)
    | none => .error malformed
  | other =>
    match ofMnemonic? other with
    | some i => .ok i
    | none => .error (.illegalInstruction other)

/-- The instruction on a line; none on a blank line. -/
def readLine (line : String) : Except Fault (Option Instruction) :=
  match words line with
  | [] => .ok none
  | mnemonic :: operands => (ofWords line mnemonic operands).map some

/-- The instruction that a text is. -/
def read (s : String) : Except Fault Instruction :=
  match readLine s with
  | .ok (some i) => .ok i
  | .ok none => .error (.illegalInstruction "")
  | .error f => .error f

end Instruction

/-- Instructions in the order in which they are executed. -/
abbrev Code := List Instruction

namespace Code

/-- The text of each instruction. -/
def lines (c : Code) : List String := c.map Instruction.text

/-- The text of code, a line for each instruction. -/
def listing (c : Code) : String := joinLines c.lines

/-- The code that lines stand for, blank ones skipped, or the fault of the first
line that is no instruction. -/
def ofLines (ls : List String) : Except Fault Code :=
  (ls.mapM Instruction.readLine).map fun read => read.filterMap id

/-- The names that code stores to or loads from. -/
def names (c : Code) : List String := c.filterMap Instruction.name?

end Code
end PolishCalc
