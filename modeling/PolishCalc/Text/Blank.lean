import PolishCalc.Text.Ascii

/-! # Blank characters

The characters that separate words: those with the Unicode property White_Space,
twenty-five code points.  Characters that merely look empty, such as the zero
width space U+200B, the byte order mark U+FEFF or the separators U+001C to
U+001F, are ordinary characters and can be part of a word.
-/
namespace PolishCalc.Text

/-- The code point has the property White_Space. -/
def isBlankCode (n : Nat) : Bool :=
  (0x09 ≤ n && n ≤ 0x0D) || n == 0x20 || n == 0x85 || n == 0xA0 || n == 0x1680 ||
  (0x2000 ≤ n && n ≤ 0x200A) || n == 0x2028 || n == 0x2029 || n == 0x202F || n == 0x205F ||
  n == 0x3000

/-- `c` separates words. -/
def isBlank (c : Char) : Bool := isBlankCode c.toNat

theorem isBlank_of_isWhitespace {c : Char} (h : c.isWhitespace) : isBlank c := by
  have h' : (decide (c = ' ') || decide (c = '\t') || decide (c = '\r') || decide (c = '\n')) =
      true := h
  simp only [Bool.or_eq_true, decide_eq_true_eq] at h'
  rcases h' with ((rfl | rfl) | rfl) | rfl <;> rfl

/-- Digits are no blanks. -/
theorem isBlank_of_isDigit {c : Char} (h : c.isDigit) : isBlank c = false := by
  have range := toNat_of_isDigit h
  simp only [isBlank, isBlankCode]
  generalize c.toNat = n at range
  simp
  omega

end PolishCalc.Text
