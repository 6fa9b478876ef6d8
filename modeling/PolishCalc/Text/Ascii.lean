/-! # Letters and digits

Only ASCII letters start a name and only ASCII digits write a number.  The two
lemmas give the code points of both classes, so that later proofs compare
numbers and not characters.
-/
namespace PolishCalc.Text

/-- The code points of letters. -/
theorem toNat_of_isAlpha {c : Char} (h : c.isAlpha) :
    65 ≤ c.toNat ∧ c.toNat ≤ 90 ∨ 97 ≤ c.toNat ∧ c.toNat ≤ 122 := by
  have h' : (decide (c.val ≥ 'A'.val ∧ c.val ≤ 'Z'.val) ||
      (decide (c.val ≥ 'a'.val) && decide (c.val ≤ 'z'.val))) = true := h
  simpa [UInt32.le_iff_toNat_le] using h'

/-- The code points of digits. -/
theorem toNat_of_isDigit {c : Char} (h : c.isDigit) : 48 ≤ c.toNat ∧ c.toNat ≤ 57 := by
  have h' : (decide (c.val ≥ '0'.val) && decide (c.val ≤ '9'.val)) = true := h
  simpa [UInt32.le_iff_toNat_le] using h'

/-- No digit is a letter. -/
theorem isAlpha_of_isDigit {c : Char} (h : c.isDigit) : c.isAlpha = false := by
  cases ha : c.isAlpha with
  | false => rfl
  | true =>
    have := toNat_of_isAlpha ha
    have := toNat_of_isDigit h
    omega

end PolishCalc.Text
