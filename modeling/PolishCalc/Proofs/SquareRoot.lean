import Mathlib.Analysis.Real.Sqrt
import Mathlib.Data.Int.Interval
import Mathlib.Data.Set.Finite.Lattice
import PolishCalc.Proofs.ExactArithmetic

/-! # Square roots are exact

The root of a word is found in integers, so it obeys the law of the integer square root, and
everything else that can be said of it follows from this law: it grows with the word, and the root
of a square is what was squared.  The squares on both sides of a word are taken in integers, since
that of the next root need not be a word.

A machine with floating point has a shorter way to the same number.  It rounds the word to a double,
takes the square root, rounds that to a double again, and cuts off what is behind the point.  The
first rounding changes nothing, because a double has more bits than a word.  The second might go up
to the next integer, where the word is just below its square.  But there is always a double in
between (`sqrt_le_nextBelow`), since the roots of integers come no closer to an integer `k` than
about `1 / (2 * k)`, and a rounding to nearest does not pass over a double (`IsNearest.le_of_le`).
So the two ways agree on all words (`floor_of_isNearest_sqrt`).
-/
namespace PolishCalc

/-! ## The law on words -/

theorem floorRoot_le_of_lt {n : Nat} (h : n < 2 ^ 31) : floorRoot n ≤ 46340 := by
  rw [floorRoot_eq_sqrt, ← Nat.lt_succ_iff, Nat.sqrt_lt]
  omega

/-- The root of a square is what was squared. -/
theorem floorRoot_mul_self (n : Nat) : floorRoot (n * n) = n := by
  rw [floorRoot_eq_sqrt, Nat.sqrt_eq]

namespace UnaryOp

variable {v w : Int32}

/-- **The root of a word that is not below zero** is the integer square root of the natural number
that it stands for. -/
theorem apply_sqrt (h : 0 ≤ v) :
    ∃ (n : Nat) (r : Int32), n < 2 ^ 31 ∧ v.toInt = n ∧
      sqrt.apply v = .ok r ∧ r.toInt = floorRoot n := by
  have hnonneg : 0 ≤ v.toInt := Int32.toInt_zero ▸ Int32.le_iff_toInt_le.mp h
  have hlt := v.toInt_lt
  obtain ⟨n, hn⟩ := Int.eq_ofNat_of_zero_le hnonneg
  have hroot : floorRoot n ≤ 46340 := floorRoot_le_of_lt (by omega)
  refine ⟨n, Int32.ofNat (floorRoot n), by omega, hn, ?_, Int32.toInt_ofNat_of_lt (by omega)⟩
  rw [apply, if_neg (mt neg_iff_toInt.mp (by omega)), hn, Int.toNat_natCast]

/-- A greater word has a greater root, or the same. -/
theorem apply_sqrt_mono (h : 0 ≤ v) (hvw : v ≤ w) :
    ∃ r s, sqrt.apply v = .ok r ∧ sqrt.apply w = .ok s ∧ r ≤ s := by
  obtain ⟨m, r, -, hm, hr, hroot⟩ := apply_sqrt h
  obtain ⟨n, s, -, hn, hs, hroot'⟩ := apply_sqrt (Int32.le_trans h hvw)
  refine ⟨r, s, hr, hs, ?_⟩
  rw [Int32.le_iff_toInt_le] at hvw ⊢
  rw [hroot, hroot', floorRoot_eq_sqrt, floorRoot_eq_sqrt, Int.ofNat_le]
  exact Nat.sqrt_le_sqrt (by omega)

/-- The square of a word up to `46340` is a word, and its root is what was squared. -/
theorem apply_sqrt_mul_self (h : 0 ≤ v) (hv : v ≤ 46340) :
    (v * v).toInt = v.toInt * v.toInt ∧ sqrt.apply (v * v) = .ok v := by
  have hlow : 0 ≤ v.toInt := Int32.le_iff_toInt_le.mp h
  have hhigh : v.toInt ≤ 46340 := Int32.le_iff_toInt_le.mp hv
  have hsquare : v.toInt * v.toInt ≤ 46340 * 46340 := Int.mul_le_mul hhigh hhigh hlow (by decide)
  have hproduct : (v * v).toInt = v.toInt * v.toInt := by
    have hnonneg := Int.mul_nonneg hlow hlow
    rw [Int32.toInt_mul]
    exact Int.bmod_eq_of_le (by omega) (by omega)
  have hnonneg : 0 ≤ v * v := by
    rw [Int32.le_iff_toInt_le, hproduct]
    exact Int.mul_nonneg hlow hlow
  obtain ⟨n, r, -, hn, hr, hroot⟩ := apply_sqrt hnonneg
  obtain ⟨k, hk⟩ := Int.eq_ofNat_of_zero_le hlow
  rw [hproduct, hk] at hn
  obtain rfl : k * k = n := by exact_mod_cast hn
  rw [floorRoot_mul_self, ← hk, Int32.toInt_inj] at hroot
  exact ⟨hproduct, hroot ▸ hr⟩

end UnaryOp

/-! ## Doubles -/

/-- The finite numbers of the binary64 format: integers below `2 ^ 53`, scaled by a power of two. -/
def IsDouble (x : ℝ) : Prop :=
  ∃ m e : ℤ, |m| < 2 ^ 53 ∧ -1074 ≤ e ∧ e ≤ 971 ∧ x = m * 2 ^ e

/-- `d` is a double, and none is nearer to `x`.  Within the range of the doubles this is what correct
rounding of `x` gives, whichever way ties are broken. -/
structure IsNearest (x d : ℝ) : Prop where
  isDouble : IsDouble d
  le_abs : ∀ y, IsDouble y → |x - d| ≤ |x - y|

theorem isDouble_intCast {i : ℤ} (h : |i| < 2 ^ 53) : IsDouble i :=
  ⟨i, 0, h, by decide, by decide, by simp⟩

theorem finite_isDouble : {x | IsDouble x}.Finite := by
  refine ((Set.finite_Icc (-2 ^ 53 : ℤ) (2 ^ 53)).image2 (fun m e : ℤ => (m : ℝ) * 2 ^ e)
    (Set.finite_Icc (-1074 : ℤ) 971)).subset ?_
  rintro x ⟨m, e, hm, hlow, hhigh, rfl⟩
  obtain ⟨hneg, hpos⟩ := abs_lt.mp hm
  exact ⟨m, ⟨hneg.le, hpos.le⟩, e, ⟨hlow, hhigh⟩, rfl⟩

/-- **Every number can be rounded.** -/
theorem exists_isNearest (x : ℝ) : ∃ d, IsNearest x d := by
  have hzero : IsDouble 0 := by exact_mod_cast isDouble_intCast (i := 0) (by decide)
  obtain ⟨d, hd, hmin⟩ := Set.exists_min_image _ (fun d => |x - d|) finite_isDouble ⟨0, hzero⟩
  exact ⟨d, hd, hmin⟩

namespace IsNearest

variable {x d y : ℝ}

/-- A double is rounded to itself. -/
theorem eq_of_isDouble (h : IsNearest x d) (hx : IsDouble x) : d = x := by
  have hle := h.le_abs x hx
  rw [sub_self, abs_zero] at hle
  exact (sub_eq_zero.mp (abs_nonpos_iff.mp hle)).symm

/-- **Rounding down does not pass over a double.** -/
theorem le_of_le (h : IsNearest x d) (hy : IsDouble y) (hyx : y ≤ x) : y ≤ d := by
  by_contra hlt
  have hdy : d < y := not_le.mp hlt
  have hle := h.le_abs y hy
  rw [abs_of_nonneg (by linarith), abs_of_nonneg (by linarith)] at hle
  linarith

/-- **Rounding up does not pass over a double.** -/
theorem le_of_ge (h : IsNearest x d) (hy : IsDouble y) (hxy : x ≤ y) : d ≤ y := by
  by_contra hlt
  have hyd : y < d := not_le.mp hlt
  have hle := h.le_abs y hy
  rw [abs_of_nonpos (by linarith), abs_of_nonpos (by linarith)] at hle
  linarith

end IsNearest

/-! ## Roots in floating point -/

/-- A double below `k`, near to it. -/
noncomputable def nextBelow (k : ℕ) : ℝ := k - 2 ^ (-17 : ℤ)

theorem isDouble_nextBelow {k : ℕ} (hk : k ≤ 2 ^ 16) : IsDouble (nextBelow k) := by
  refine ⟨k * 2 ^ 17 - 1, -17, ?_, by decide, by decide, ?_⟩
  · rw [abs_lt]
    omega
  · rw [nextBelow]
    push_cast
    rw [sub_mul, one_mul, mul_assoc]
    norm_num

/-- **The roots of smaller integers keep away from `k`.** -/
theorem sqrt_le_nextBelow {k n : ℕ} (hk : k ≤ 2 ^ 16) (hn : n < k * k) : √n ≤ nextBelow k := by
  have hgap : (2 : ℝ) ^ (-17 : ℤ) = 1 / 131072 := by norm_num
  have hkpos : k ≠ 0 := by
    rintro rfl
    exact absurd hn (Nat.not_lt_zero n)
  have hlow : (1 : ℝ) ≤ k := by exact_mod_cast Nat.one_le_iff_ne_zero.mpr hkpos
  have hhigh : (k : ℝ) ≤ 65536 := by exact_mod_cast hk
  have hsquare : (n : ℝ) + 1 ≤ k * k := by exact_mod_cast hn
  rw [nextBelow, hgap, Real.sqrt_le_left (by linarith)]
  -- What the square loses below `k` is less than the distance between two integers.
  calc (n : ℝ) ≤ k * k - 2 * (1 / 131072) * k := by linarith
    _ ≤ (k - 1 / 131072) ^ 2 := by linarith [sq_nonneg (1 / 131072 : ℝ)]

/-- **The root of a word in floating point,** cut to an integer, is the integer square root. -/
theorem floor_of_isNearest_sqrt {n : ℕ} (hn : n < 2 ^ 31) {d : ℝ} (h : IsNearest √n d) :
    ⌊d⌋ = floorRoot n := by
  have hroot := floorRoot_le_of_lt hn
  rw [floorRoot_eq_sqrt] at hroot ⊢
  rw [Int.floor_eq_iff]
  constructor
  · -- The root is a double itself.
    refine h.le_of_le (isDouble_intCast ?_) Real.nat_sqrt_le_real_sqrt
    rw [Nat.abs_cast]
    omega
  · have hnext : √n ≤ nextBelow (n.sqrt + 1) :=
      sqrt_le_nextBelow (by omega) n.lt_succ_sqrt
    calc d ≤ nextBelow (n.sqrt + 1) := h.le_of_ge (isDouble_nextBelow (by omega)) hnext
      _ < n.sqrt + 1 := by
        rw [nextBelow]
        push_cast
        linarith [zpow_pos (show (0 : ℝ) < 2 by norm_num) (-17)]

/-- **Square roots are exact.**  The root of a word that is not below zero is the integer whose square
is at most this word while the next one is greater; it is at most `46340`.  Words below zero have no
root.  So roots grow with the words, and the root of a square is what was squared, for all words up
to `46340`, whose squares are words.  A machine that rounds the word to a double, rounds the square
root of this to a double, and cuts it to an integer, comes to the same root. -/
theorem square_root_is_exact_floor :
    (∀ v : Int32, 0 ≤ v →
      ∃ r, UnaryOp.sqrt.apply v = .ok r ∧ 0 ≤ r.toInt ∧ r.toInt * r.toInt ≤ v.toInt ∧
        v.toInt < (r.toInt + 1) * (r.toInt + 1) ∧ r.toInt ≤ 46340) ∧
    (∀ v : Int32, v < 0 → UnaryOp.sqrt.apply v = .error .negativeSquareRoot) ∧
    (∀ v w : Int32, 0 ≤ v → v ≤ w →
      ∃ r s, UnaryOp.sqrt.apply v = .ok r ∧ UnaryOp.sqrt.apply w = .ok s ∧ r ≤ s) ∧
    (∀ k : Int32, 0 ≤ k → k ≤ 46340 →
      (k * k).toInt = k.toInt * k.toInt ∧ UnaryOp.sqrt.apply (k * k) = .ok k) ∧
    (∀ (v : Int32) (x d : ℝ), 0 ≤ v → IsNearest v.toInt x → IsNearest √x d →
      ∃ r, UnaryOp.sqrt.apply v = .ok r ∧ r.toInt = ⌊d⌋) := by
  refine ⟨fun v hv => ?_, fun v hv => if_pos hv, fun v w => UnaryOp.apply_sqrt_mono,
    fun k => UnaryOp.apply_sqrt_mul_self, fun v x d hv hx hd => ?_⟩
  · obtain ⟨n, r, hn, hvalue, hr, hroot⟩ := UnaryOp.apply_sqrt hv
    obtain ⟨low, high⟩ := floorRoot_bounds n
    refine ⟨r, hr, ?_⟩
    rw [hvalue, hroot]
    exact ⟨by omega, by exact_mod_cast low, by exact_mod_cast high,
      by exact_mod_cast floorRoot_le_of_lt hn⟩
  · obtain ⟨n, r, hn, hvalue, hr, hroot⟩ := UnaryOp.apply_sqrt hv
    have hdouble : IsDouble n := isDouble_intCast (i := n) (by rw [Nat.abs_cast]; omega)
    rw [hvalue] at hx
    obtain rfl : x = n := hx.eq_of_isDouble hdouble
    exact ⟨r, hr, by rw [hroot, floor_of_isNearest_sqrt hn hd]⟩

/-- The word just below the greatest square, in integers and in floating point; the greatest square
itself; and the word just below zero. -/
theorem square_root_is_exact_floor_below_square :
    (∃ r, UnaryOp.sqrt.apply 2147395599 = .ok r ∧ r.toInt = 46339 ∧
      (r.toInt + 1) * (r.toInt + 1) = (2147395599 : Int32).toInt + 1) ∧
      (∃ d, IsNearest √2147395599 d ∧ ⌊d⌋ = 46339) ∧
      UnaryOp.sqrt.apply (46340 * 46340) = .ok 46340 ∧
      (∃ r s, UnaryOp.sqrt.apply 2147395599 = .ok r ∧
        UnaryOp.sqrt.apply (46340 * 46340) = .ok s ∧ r ≤ s) ∧
      UnaryOp.sqrt.apply (-1) = .error .negativeSquareRoot := by
  obtain ⟨hfloor, hbelow, hmono, hsquare, hdouble⟩ := square_root_is_exact_floor
  have hvalue : (2147395599 : Int32).toInt = 2147395599 := by decide
  obtain ⟨r, hr, hnonneg, hlow, hhigh, -⟩ := hfloor 2147395599 (by decide)
  have hroot : r.toInt = 46339 := by
    rw [hvalue] at hlow hhigh
    nlinarith
  refine ⟨⟨r, hr, hroot, by rw [hroot, hvalue]; decide⟩, ?_, (hsquare 46340 (by decide) (by decide)).2,
    hmono _ _ (by decide) (by decide), hbelow (-1) (by decide)⟩
  obtain ⟨x, hx⟩ := exists_isNearest ((2147395599 : Int32).toInt : ℝ)
  obtain ⟨d, hd⟩ := exists_isNearest √x
  obtain ⟨r', hr', hcut⟩ := hdouble 2147395599 x d (by decide) hx hd
  obtain rfl : r = r' := Except.ok.inj (hr.symm.trans hr')
  have hexact : x = 2147395599 := by
    rw [hx.eq_of_isDouble (isDouble_intCast (by decide)), hvalue]
    norm_num
  exact ⟨d, hexact ▸ hd, hcut.symm.trans hroot⟩

end PolishCalc
