/-! # The integer square root

`floorRoot n` is the largest `r` with `r * r ≤ n`.  It is found digit by digit in
base two, two binary digits of `n` for one of the root: the root of `n` is twice
the root of `n / 4`, or one more.  No floating point is involved, so the law at
the end holds for every `n`.
-/
namespace PolishCalc

/-- The integer square root of `n`, to `k` binary digits. -/
def rootDigits : Nat → Nat → Nat
  | 0, _ => 0
  | k + 1, n =>
    let r := 2 * rootDigits k (n / 4)
    if (r + 1) * (r + 1) ≤ n then r + 1 else r

/-- The largest number whose square is at most `n`. -/
def floorRoot (n : Nat) : Nat := rootDigits (n.log2 / 2 + 1) n

/-- `k` binary digits are enough for the root of a number below the `k`-th power of
four. -/
theorem rootDigits_bounds {k n : Nat} (h : n < Nat.pow 4 k) :
    rootDigits k n * rootDigits k n ≤ n ∧ n < (rootDigits k n + 1) * (rootDigits k n + 1) := by
  induction k generalizing n with
  | zero =>
    have hn : n = 0 := Nat.lt_one_iff.mp h
    subst hn
    decide
  | succ k ih =>
    obtain ⟨low, high⟩ := @ih (n / 4) (Nat.div_lt_of_lt_mul (Nat.mul_comm _ 4 ▸ h))
    rw [rootDigits]
    generalize rootDigits k (n / 4) = r at low high
    have four : 2 * r * (2 * r) = 4 * (r * r) := by rw [Nat.mul_mul_mul_comm]
    have next : (2 * r + 2) * (2 * r + 2) = 4 * ((r + 1) * (r + 1)) := by
      rw [show 2 * r + 2 = 2 * (r + 1) from rfl, Nat.mul_mul_mul_comm]
    split
    · rename_i hle
      exact ⟨hle, by rw [Nat.add_assoc, next]; omega⟩
    · rename_i hlt
      exact ⟨by rw [four]; omega, by omega⟩

/-- **The law of the integer square root.** -/
theorem floorRoot_bounds (n : Nat) :
    floorRoot n * floorRoot n ≤ n ∧ n < (floorRoot n + 1) * (floorRoot n + 1) := by
  refine rootDigits_bounds ?_
  calc n < 2 ^ (n.log2 + 1) := Nat.lt_log2_self
    _ ≤ 2 ^ (2 * (n.log2 / 2 + 1)) := Nat.pow_le_pow_right (by decide) (by omega)
    _ = 4 ^ (n.log2 / 2 + 1) := by rw [Nat.pow_mul]

/-- The law determines the root. -/
theorem floorRoot_eq {n r : Nat} (low : r * r ≤ n) (high : n < (r + 1) * (r + 1)) :
    floorRoot n = r := by
  obtain ⟨low', high'⟩ := floorRoot_bounds n
  have h₁ : r < floorRoot n + 1 :=
    Nat.mul_self_lt_mul_self_iff.mp (Nat.lt_of_le_of_lt low high')
  have h₂ : floorRoot n < r + 1 :=
    Nat.mul_self_lt_mul_self_iff.mp (Nat.lt_of_le_of_lt low' high)
  omega

end PolishCalc
