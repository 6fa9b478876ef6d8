import PolishCalc.Fault
import PolishCalc.FloorRoot

/-! # Operators

Two operators take one operand and five take two.  An operator has a symbol in
source text, a mnemonic in the stack machine's instructions, and one meaning,
which direct evaluation and the stack machine share.  Arithmetic is on 32-bit
words and wraps around; a quotient is cut toward zero and a remainder has the
sign of the dividend.
-/
namespace PolishCalc

/-- An operator with one operand. -/
inductive UnaryOp where
  /-- The number of the other sign. -/
  | negate
  /-- The integer square root. -/
  | sqrt
deriving DecidableEq, Repr

/-- An operator with two operands. -/
inductive BinaryOp where
  | add
  | sub
  | mul
  /-- The quotient, cut toward zero. -/
  | div
  /-- The remainder, with the sign of the dividend. -/
  | mod
deriving DecidableEq, Repr

namespace UnaryOp

/-- The token that stands for the operator in source text. -/
def symbol : UnaryOp → String
  | negate => "!"
  | sqrt => "$"

/-- The operator that a token stands for. -/
def ofSymbol? : String → Option UnaryOp
  | "!" => some negate
  | "$" => some sqrt
  | _ => none

/-- The name of the operator's instruction. -/
def mnemonic : UnaryOp → String
  | negate => "NEG"
  | sqrt => "SQRT"

/-- The operator that an instruction's name stands for. -/
def ofMnemonic? : String → Option UnaryOp
  | "NEG" => some negate
  | "SQRT" => some sqrt
  | _ => none

/-- The operator's value on `v`.  The number of the other sign wraps around, so
that the least number is its own; the root of a number below zero is a fault. -/
def apply : UnaryOp → Int32 → Except Fault Int32
  | negate, v => .ok (-v)
  | sqrt, v =>
    if v < 0 then .error .negativeSquareRoot else .ok (Int32.ofNat (floorRoot v.toInt.toNat))

theorem ofSymbol?_eq_some_iff {token : String} {op : UnaryOp} :
    ofSymbol? token = some op ↔ token = op.symbol := by
  constructor
  · intro h
    unfold ofSymbol? at h
    split at h <;> cases h <;> rfl
  · rintro rfl
    cases op <;> rfl

theorem ofMnemonic?_eq_some_iff {name : String} {op : UnaryOp} :
    ofMnemonic? name = some op ↔ name = op.mnemonic := by
  constructor
  · intro h
    unfold ofMnemonic? at h
    split at h <;> cases h <;> rfl
  · rintro rfl
    cases op <;> rfl

end UnaryOp

namespace BinaryOp

/-- The token that stands for the operator in source text. -/
def symbol : BinaryOp → String
  | add => "+"
  | sub => "-"
  | mul => "*"
  | div => "/"
  | mod => "%"

/-- The operator that a token stands for. -/
def ofSymbol? : String → Option BinaryOp
  | "+" => some add
  | "-" => some sub
  | "*" => some mul
  | "/" => some div
  | "%" => some mod
  | _ => none

/-- The name of the operator's instruction. -/
def mnemonic : BinaryOp → String
  | add => "ADD"
  | sub => "SUB"
  | mul => "MUL"
  | div => "DIV"
  | mod => "MOD"

/-- The operator that an instruction's name stands for. -/
def ofMnemonic? : String → Option BinaryOp
  | "ADD" => some add
  | "SUB" => some sub
  | "MUL" => some mul
  | "DIV" => some div
  | "MOD" => some mod
  | _ => none

/-- The operator's value on `l` and `r`.  Only a divisor of zero is a fault: the
least number divided by `-1` wraps around to itself, with remainder zero. -/
def apply : BinaryOp → Int32 → Int32 → Except Fault Int32
  | add, l, r => .ok (l + r)
  | sub, l, r => .ok (l - r)
  | mul, l, r => .ok (l * r)
  | div, l, r => if r = 0 then .error .divideByZero else .ok (l / r)
  | mod, l, r => if r = 0 then .error .divideByZero else .ok (l % r)

theorem ofSymbol?_eq_some_iff {token : String} {op : BinaryOp} :
    ofSymbol? token = some op ↔ token = op.symbol := by
  constructor
  · intro h
    unfold ofSymbol? at h
    split at h <;> cases h <;> rfl
  · rintro rfl
    cases op <;> rfl

theorem ofMnemonic?_eq_some_iff {name : String} {op : BinaryOp} :
    ofMnemonic? name = some op ↔ name = op.mnemonic := by
  constructor
  · intro h
    unfold ofMnemonic? at h
    split at h <;> cases h <;> rfl
  · rintro rfl
    cases op <;> rfl

end BinaryOp
end PolishCalc
