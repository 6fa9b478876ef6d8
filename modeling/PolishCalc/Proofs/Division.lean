import PolishCalc.Proofs.ExactArithmetic

/-! # Division with remainder

The quotient and the remainder are two operators, and a program may use one without the other, yet
they describe one division: what the quotient leaves of the dividend is the remainder.  On integers
the size and the sign of the remainder fix both of them (`truncatedDivision_iff`).  A quotient that
was rounded down, or chosen so that the remainder is never below zero, would leave another remainder
when the operands differ in sign.

On words there is one pair of operands whose quotient is no word, the least word and `-1`.  The
quotient is then reduced, and as reduction commutes with the product and the sum, the parts still
make up the dividend (`div_mul_add_mod`); but they do so in words only, and not in the integers that
the words stand for.
-/
namespace PolishCalc

/-! ## Integers -/

/-- `q` and `r` are the parts of `i` in a division by `j` that is cut toward zero: the remainder is
nearer to zero than `j`, and it is zero or has the sign of `i`. -/
structure TruncatedDivision (i j q r : Int) : Prop where
  whole : q * j + r = i
  small : r.natAbs < j.natAbs
  sign : r = 0 ∨ r.sign = i.sign

/-- **The law of truncated division determines both parts.** -/
theorem truncatedDivision_iff {i j q r : Int} (hj : j ≠ 0) :
    TruncatedDivision i j q r ↔ q = i.tdiv j ∧ r = i.tmod j := by
  constructor
  · intro h
    have hwhole : r + j * q = i := by rw [Int.add_comm, Int.mul_comm, h.whole]
    have hsmall := h.small
    -- The remainder is on the side of zero on which `i` is, and there it is unique.
    rcases Int.le_total 0 i with hi | hi
    · have hr : 0 ≤ r := by
        rcases h.sign with rfl | hsign
        · exact Int.le_refl 0
        · exact Int.sign_nonneg_iff.mp (hsign ▸ Int.sign_nonneg_iff.mpr hi)
      obtain ⟨hq, hr⟩ := (Int.tdiv_tmod_unique hi hj).mpr ⟨hwhole, hr, by omega⟩
      exact ⟨hq.symm, hr.symm⟩
    · have hr : r ≤ 0 := by
        rcases h.sign with rfl | hsign
        · exact Int.le_refl 0
        · exact Int.sign_nonpos_iff.mp (hsign ▸ Int.sign_nonpos_iff.mpr hi)
      obtain ⟨hq, hr⟩ := (Int.tdiv_tmod_unique' hi hj).mpr ⟨hwhole, by omega, hr⟩
      exact ⟨hq.symm, hr.symm⟩
  · rintro ⟨rfl, rfl⟩
    refine ⟨Int.tdiv_mul_add_tmod i j, ?_, ?_⟩
    · rw [Int.natAbs_tmod]
      exact Nat.mod_lt _ (Int.natAbs_pos.mpr hj)
    · rw [Int.sign_tmod]
      split
      · rename_i hdvd
        exact .inl (Int.tmod_eq_zero_of_dvd hdvd)
      · exact .inr rfl

/-! ## Words -/

variable {a b : Int32}

theorem BinaryOp.apply_div (hb : b ≠ 0) : div.apply a b = .ok (a / b) := if_neg hb

theorem BinaryOp.apply_mod (hb : b ≠ 0) : mod.apply a b = .ok (a % b) := if_neg hb

/-- A quotient of words is the quotient of the integers, reduced. -/
theorem div_eq_ofInt (hb : b ≠ 0) : a / b = Int32.ofInt (a.toInt.tdiv b.toInt) := by
  have hop := BinaryOp.apply_eq_exact .div a b
  rw [BinaryOp.apply_div hb, BinaryOp.exact, if_neg (mt eq_zero_iff_toInt.mpr hb)] at hop
  exact Except.ok.inj hop

/-- **The quotient and the remainder make up the dividend** in words. -/
theorem div_mul_add_mod (hb : b ≠ 0) : a / b * b + a % b = a :=
  calc a / b * b + a % b
    _ = Int32.ofInt (a.toInt.tdiv b.toInt) * Int32.ofInt b.toInt +
          Int32.ofInt (a.toInt.tmod b.toInt) := by
      rw [div_eq_ofInt hb, ← Int32.toInt_mod, Int32.ofInt_toInt, Int32.ofInt_toInt]
    _ = Int32.ofInt (a.toInt.tdiv b.toInt * b.toInt + a.toInt.tmod b.toInt) := by
      rw [Int32.ofInt_add, Int32.ofInt_mul]
    _ = a := by rw [Int.tdiv_mul_add_tmod, Int32.ofInt_toInt]

/-- A quotient of words need not be reduced, unless the least word is divided by `-1`. -/
theorem toInt_div_of_ne (h : ¬(a = Int32.minValue ∧ b = -1)) :
    (a / b).toInt = a.toInt.tdiv b.toInt := by
  rcases Decidable.not_and_iff_or_not.mp h with ha | hb
  · exact Int32.toInt_div_of_ne_left a b ha
  · exact Int32.toInt_div_of_ne_right a b hb

/-- **The quotient and the remainder are those of truncated division.**  If the divisor is not zero,
both have a value; the remainder is zero or has the sign of the dividend, it is nearer to zero than
the divisor, and the two make up the dividend in words.  They make it up in integers too, with
the quotient cut toward zero, and are the only integers that obey the law, for all operands but the
least word and `-1`; there the quotient is the least word again, and the remainder is zero.  If
the divisor is zero, both are faults. -/
theorem quotient_and_remainder_are_truncated :
    (∀ a b : Int32, b ≠ 0 →
      ∃ q r, BinaryOp.div.apply a b = .ok q ∧ BinaryOp.mod.apply a b = .ok r ∧
        (r = 0 ∨ r.toInt.sign = a.toInt.sign) ∧ r.toInt.natAbs < b.toInt.natAbs ∧
        q * b + r = a ∧
        (¬(a = Int32.minValue ∧ b = -1) →
          q.toInt * b.toInt + r.toInt = a.toInt ∧ q.toInt = a.toInt.tdiv b.toInt ∧
          ∀ i j : Int, TruncatedDivision a.toInt b.toInt i j → i = q.toInt ∧ j = r.toInt) ∧
        (a = Int32.minValue ∧ b = -1 → q = Int32.minValue ∧ r = 0)) ∧
    (∀ a : Int32, BinaryOp.div.apply a 0 = .error .divideByZero ∧
      BinaryOp.mod.apply a 0 = .error .divideByZero) := by
  refine ⟨fun a b hb => ?_, fun a => ⟨rfl, rfl⟩⟩
  have hbi : b.toInt ≠ 0 := mt eq_zero_iff_toInt.mpr hb
  have hlaw : TruncatedDivision a.toInt b.toInt (a.toInt.tdiv b.toInt) (a % b).toInt :=
    (truncatedDivision_iff hbi).mpr ⟨rfl, Int32.toInt_mod a b⟩
  refine ⟨a / b, a % b, BinaryOp.apply_div hb, BinaryOp.apply_mod hb,
    hlaw.sign.imp_left eq_zero_iff_toInt.mpr, hlaw.small, div_mul_add_mod hb, ?_, ?_⟩
  · intro hword
    have hquotient := toInt_div_of_ne hword
    refine ⟨hquotient ▸ hlaw.whole, hquotient, fun i j h => ?_⟩
    rw [hquotient, Int32.toInt_mod]
    exact (truncatedDivision_iff hbi).mp h
  · rintro ⟨rfl, rfl⟩
    decide

/-- Operands of different signs, whose quotient would be `-4` if it was rounded down; and the two
whose quotient is no word. -/
theorem quotient_and_remainder_are_truncated_of_examples :
    (BinaryOp.div.apply (-7) 2 = .ok (-3) ∧ BinaryOp.mod.apply (-7) 2 = .ok (-1)) ∧
      (BinaryOp.div.apply Int32.minValue (-1) = .ok Int32.minValue ∧
        BinaryOp.mod.apply Int32.minValue (-1) = .ok 0) := by
  obtain ⟨hnonzero, -⟩ := quotient_and_remainder_are_truncated
  constructor
  · obtain ⟨q, r, hdiv, hmod, -, -, -, hexact, -⟩ := hnonzero (-7) 2 (by decide)
    obtain ⟨hq, hr⟩ := (hexact (by decide)).2.2 (-3) (-1) ⟨by decide, by decide, .inr rfl⟩
    obtain rfl : q = -3 := Int32.toInt_inj.mp (hq.symm.trans (by decide))
    obtain rfl : r = -1 := Int32.toInt_inj.mp (hr.symm.trans (by decide))
    exact ⟨hdiv, hmod⟩
  · obtain ⟨q, r, hdiv, hmod, -, -, -, -, hleast⟩ := hnonzero Int32.minValue (-1) (by decide)
    obtain ⟨rfl, rfl⟩ := hleast ⟨rfl, rfl⟩
    exact ⟨hdiv, hmod⟩

end PolishCalc
