import Mathlib.Algebra.Group.Int.Defs
import Mathlib.Algebra.Group.Nat.Defs
import Mathlib.Data.Int.Sqrt
import PolishCalc.Proofs.Evaluation

/-! # Words and exact arithmetic

The numbers of an expression are 32-bit words, and the numbers that it is written about are the
integers, which have no bounds.  Every operator on words is the operator on integers followed by
`Int32.ofInt`, which reduces a result modulo `2 ^ 32` to the word that it is congruent to
(`UnaryOp.apply_eq_exact`, `BinaryOp.apply_eq_exact`).

As long as all results are words, the reduction changes nothing, and the two arithmetics agree on
values and on faults (`Expr.map_toInt_eval`).  A result that was reduced may be used again, and
negation, sums, differences and products do not notice: `Int32.ofInt` is a homomorphism of rings,
so that an expression with no other operators may as well be reduced once, at the end
(`Expr.eval_of_isPolynomial`).  Quotients, remainders and roots do notice.
-/
namespace PolishCalc

/-- The integers that a 32-bit word stands for. -/
def IsInt32 (i : Int) : Prop := -2 ^ 31 ≤ i ∧ i < 2 ^ 31

instance (i : Int) : Decidable (IsInt32 i) := inferInstanceAs (Decidable (_ ∧ _))

/-! ## Exact values -/

/-- The operator on integers. -/
def UnaryOp.exact : UnaryOp → Int → Except Fault Int
  | negate, i => .ok (-i)
  | sqrt, i => if i < 0 then .error .negativeSquareRoot else .ok i.sqrt

/-- The operator on integers.  A quotient is cut toward zero, and a remainder has the sign of the
dividend. -/
def BinaryOp.exact : BinaryOp → Int → Int → Except Fault Int
  | add, i, j => .ok (i + j)
  | sub, i, j => .ok (i - j)
  | mul, i, j => .ok (i * j)
  | div, i, j => if j = 0 then .error .divideByZero else .ok (i.tdiv j)
  | mod, i, j => if j = 0 then .error .divideByZero else .ok (i.tmod j)

namespace Expr

/-- The value of an expression in integers, or its leftmost fault. -/
def exact (b : Bindings) : Expr → Except Fault Int
  | const v => .ok v.toInt
  | var name => (b.read name).map Int32.toInt
  | unary op e => do
    let i ← e.exact b
    op.exact i
  | binary op l r => do
    let i ← l.exact b
    let j ← r.exact b
    op.exact i j

/-- The integers that are computed for an expression, in order: those for its operands, up to the
first fault, and its own value, if there is no fault. -/
def computed (b : Bindings) : Expr → List Int
  | const v => [v.toInt]
  | var name => ((var name).exact b).toOption.toList
  | unary op e => e.computed b ++ ((unary op e).exact b).toOption.toList
  | binary op l r =>
    l.computed b ++ (if (l.exact b).isOk then r.computed b else []) ++
      ((binary op l r).exact b).toOption.toList

/-- The expression has no operators but negation, sums, differences and products. -/
def IsPolynomial : Expr → Prop
  | const _ => True
  | var _ => True
  | unary op e => op = .negate ∧ e.IsPolynomial
  | binary op l r => (op = .add ∨ op = .sub ∨ op = .mul) ∧ l.IsPolynomial ∧ r.IsPolynomial

end Expr

/-! ## Operators -/

theorem floorRoot_eq_sqrt (n : Nat) : floorRoot n = n.sqrt :=
  floorRoot_eq n.sqrt_le n.lt_succ_sqrt

theorem eq_zero_iff_toInt {v : Int32} : v = 0 ↔ v.toInt = 0 := by
  rw [← Int32.toInt_inj, Int32.toInt_zero]

theorem neg_iff_toInt {v : Int32} : v < 0 ↔ v.toInt < 0 := by
  rw [Int32.lt_iff_toInt_lt, Int32.toInt_zero]

/-- A fault that has the same condition on words and on integers. -/
theorem guarded_eq_map {c d : Prop} [Decidable c] [Decidable d] (hcond : c ↔ d) (f : Fault)
    {v : Int32} {i : Int} (hvalue : v = Int32.ofInt i) :
    (if c then Except.error f else Except.ok v) =
      (if d then Except.error f else Except.ok i).map Int32.ofInt := by
  by_cases h : c
  · rw [if_pos h, if_pos (hcond.mp h)]
    rfl
  · rw [if_neg h, if_neg (hcond.not.mp h), hvalue]
    rfl

/-- **An operator on words is the operator on integers, reduced.** -/
theorem UnaryOp.apply_eq_exact (op : UnaryOp) (v : Int32) :
    op.apply v = (op.exact v.toInt).map Int32.ofInt := by
  cases op with
  | negate =>
    show Except.ok (-v) = Except.ok (Int32.ofInt (-v.toInt))
    rw [Int32.ofInt_neg, Int32.ofInt_toInt]
  | sqrt =>
    refine guarded_eq_map neg_iff_toInt .negativeSquareRoot ?_
    rw [floorRoot_eq_sqrt]
    exact Int32.ofInt_eq_ofNat.symm

/-- **An operator on words is the operator on integers, reduced.**  A quotient is reduced only if
the least word is divided by `-1`, a remainder never. -/
theorem BinaryOp.apply_eq_exact (op : BinaryOp) (v w : Int32) :
    op.apply v w = (op.exact v.toInt w.toInt).map Int32.ofInt := by
  cases op with
  | add =>
    show Except.ok (v + w) = Except.ok (Int32.ofInt (v.toInt + w.toInt))
    rw [Int32.ofInt_add, Int32.ofInt_toInt, Int32.ofInt_toInt]
  | sub =>
    show Except.ok (v - w) = Except.ok (Int32.ofInt (v.toInt - w.toInt))
    rw [Int32.ofInt_sub, Int32.ofInt_toInt, Int32.ofInt_toInt]
  | mul =>
    show Except.ok (v * w) = Except.ok (Int32.ofInt (v.toInt * w.toInt))
    rw [Int32.ofInt_mul, Int32.ofInt_toInt, Int32.ofInt_toInt]
  | div =>
    refine guarded_eq_map eq_zero_iff_toInt .divideByZero ?_
    rw [Int32.ofInt_tdiv v.minValue_le_toInt v.toInt_le w.minValue_le_toInt w.toInt_le,
      Int32.ofInt_toInt, Int32.ofInt_toInt]
  | mod =>
    refine guarded_eq_map eq_zero_iff_toInt .divideByZero ?_
    rw [← Int32.toInt_mod, Int32.ofInt_toInt]

/-- Reduction does not change a word. -/
theorem map_toInt_map_ofInt {value : Except Fault Int}
    (h : ∀ i ∈ value.toOption.toList, IsInt32 i) :
    (value.map Int32.ofInt).map Int32.toInt = value := by
  rcases value with f | i
  · rfl
  · obtain ⟨low, high⟩ := h i (List.mem_singleton_self i)
    exact congrArg Except.ok (Int32.toInt_ofInt_of_le low high)

namespace Expr

variable {b : Bindings}

theorem exact_unary (op : UnaryOp) (e : Expr) :
    (unary op e).exact b = e.exact b >>= op.exact := rfl

theorem exact_binary (op : BinaryOp) (l r : Expr) :
    (binary op l r).exact b = l.exact b >>= fun i => r.exact b >>= op.exact i := rfl

/-! ## Results that are words -/

/-- **Words are exact while they last:** if all the integers that are computed for an expression
are words, its value is the exact one, and so is its fault. -/
theorem map_toInt_eval {e : Expr} (h : ∀ i ∈ e.computed b, IsInt32 i) :
    (e.eval b).map Int32.toInt = e.exact b := by
  induction e with
  | const v => rfl
  | var name => rfl
  | unary op e ih =>
    obtain ⟨hoperand, hresult⟩ := List.forall_mem_append.mp h
    rw [exact_unary, ← ih hoperand] at hresult ⊢
    rw [eval_unary]
    rcases heval : e.eval b with f | v
    · rfl
    · rw [heval] at hresult
      show (op.apply v).map Int32.toInt = op.exact v.toInt
      rw [UnaryOp.apply_eq_exact]
      exact map_toInt_map_ofInt hresult
  | binary op l r ihl ihr =>
    obtain ⟨hoperands, hresult⟩ := List.forall_mem_append.mp h
    obtain ⟨hleft, hright⟩ := List.forall_mem_append.mp hoperands
    rw [exact_binary, ← ihl hleft] at hresult ⊢
    rw [← ihl hleft] at hright
    rw [eval_binary]
    rcases hl : l.eval b with f | v
    · rfl
    · -- the left operand has a value, so the right one is computed as well
      rw [hl] at hright hresult
      rw [← ihr hright] at hresult ⊢
      rcases hr : r.eval b with f | w
      · rfl
      · rw [hr] at hresult
        show (op.apply v w).map Int32.toInt = op.exact v.toInt w.toInt
        rw [BinaryOp.apply_eq_exact]
        exact map_toInt_map_ofInt hresult

/-! ## Results that are reduced later -/

/-- **Reduction commutes with the ring operations:** the value of an expression that has no other
operators is the exact value, reduced once. -/
theorem eval_of_isPolynomial {e : Expr} (h : e.IsPolynomial) :
    e.eval b = (e.exact b).map Int32.ofInt := by
  induction e with
  | const v => exact congrArg Except.ok v.ofInt_toInt.symm
  | var name =>
    rw [eval, exact]
    rcases b.read name with f | v
    · rfl
    · exact congrArg Except.ok v.ofInt_toInt.symm
  | unary op e ih =>
    obtain ⟨rfl, he⟩ := h
    rw [eval_unary, exact_unary, ih he]
    rcases e.exact b with f | i
    · rfl
    · exact congrArg Except.ok (Int32.ofInt_neg i).symm
  | binary op l r ihl ihr =>
    obtain ⟨hop, hl, hr⟩ := h
    rw [eval_binary, exact_binary, ihl hl, ihr hr]
    rcases l.exact b with f | i
    · rfl
    rcases r.exact b with f | j
    · rfl
    rcases hop with rfl | rfl | rfl
    · exact congrArg Except.ok (Int32.ofInt_add i j).symm
    · exact congrArg Except.ok (Int32.ofInt_sub i j).symm
    · exact congrArg Except.ok (Int32.ofInt_mul i j).symm

/-- A fault of such an expression can only be a variable that is not bound. -/
theorem exact_of_isPolynomial {e : Expr} (h : e.IsPolynomial)
    (bound : ∀ name ∈ e.names, (b.get? name).isSome) : ∃ i, e.exact b = .ok i := by
  induction e with
  | const v => exact ⟨v.toInt, rfl⟩
  | var name =>
    obtain ⟨v, hv⟩ := Option.isSome_iff_exists.mp (bound name (List.mem_singleton_self name))
    exact ⟨v.toInt, by rw [exact, Bindings.read, hv]; rfl⟩
  | unary op e ih =>
    obtain ⟨rfl, he⟩ := h
    obtain ⟨i, hi⟩ := ih he bound
    exact ⟨-i, by rw [exact_unary, hi]; rfl⟩
  | binary op l r ihl ihr =>
    obtain ⟨hop, hl, hr⟩ := h
    obtain ⟨boundl, boundr⟩ := List.forall_mem_append.mp bound
    obtain ⟨i, hi⟩ := ihl hl boundl
    obtain ⟨j, hj⟩ := ihr hr boundr
    rw [exact_binary, hi, hj]
    rcases hop with rfl | rfl | rfl
    · exact ⟨i + j, rfl⟩
    · exact ⟨i - j, rfl⟩
    · exact ⟨i * j, rfl⟩

end Expr

/-- **Evaluation is exact arithmetic on words.**  If all the integers that are computed for an
expression, up to its end or its first fault, are words, it has its exact value or that fault.
If it has no operators but negation, sums, differences and products, and its variables are bound,
then its value is the exact one reduced modulo `2 ^ 32`, whatever is computed on the way. -/
theorem eval_agrees_with_exact (e : Expr) (b : Bindings) :
    ((∀ i ∈ e.computed b, IsInt32 i) → (e.eval b).map Int32.toInt = e.exact b) ∧
    (e.IsPolynomial → (∀ name ∈ e.names, (b.get? name).isSome) →
      ∃ i v, e.exact b = .ok i ∧ e.eval b = .ok v ∧ v.toInt = i.bmod (2 ^ 32)) := by
  refine ⟨Expr.map_toInt_eval, fun hpoly hbound => ?_⟩
  obtain ⟨i, hi⟩ := Expr.exact_of_isPolynomial hpoly hbound
  refine ⟨i, Int32.ofInt i, hi, ?_, Int32.toInt_ofInt⟩
  rw [Expr.eval_of_isPolynomial hpoly, hi]
  rfl

/-- At the ends of the range: the least word has a remainder by `-1`, and a fault comes before a
product that is no word.  A cube that is no word has its sign changed and another word taken away
from it. -/
theorem eval_agrees_with_exact_at_the_ends :
    let rest : Expr := .binary .add (.binary .mod (.var "y") (.const (-1)))
      (.unary .sqrt (.const 2147483647))
    let stopped : Expr := .binary .sub (.binary .div (.var "x") (.const 0))
      (.binary .mul (.var "x") (.var "x"))
    let cube : Expr := .binary .sub
      (.unary .negate (.binary .mul (.var "x") (.binary .mul (.var "x") (.var "x")))) (.var "y")
    let b : Bindings := ⟨[("x", 100000), ("y", -2147483648)]⟩
    rest.exact b = .ok 46340 ∧ stopped.exact b = .error .divideByZero ∧
      ∃ i v, cube.exact b = .ok i ∧ cube.eval b = .ok v ∧
        i = -999997852516352 ∧ v.toInt = -616988672 := by
  intro rest stopped cube b
  have hrest := (eval_agrees_with_exact rest b).1 (by decide +kernel)
  have hstopped := (eval_agrees_with_exact stopped b).1 (by decide +kernel)
  have hcube : cube.IsPolynomial :=
    ⟨.inr (.inl rfl), ⟨rfl, .inr (.inr rfl), trivial, .inr (.inr rfl), trivial, trivial⟩, trivial⟩
  obtain ⟨i, v, hi, hv, hmod⟩ := (eval_agrees_with_exact cube b).2 hcube (by decide)
  have hexact : i = -999997852516352 := Except.ok.inj (hi.symm.trans (by decide))
  refine ⟨hrest.symm.trans (by decide), hstopped.symm.trans (by decide), i, v, hi, hv, hexact, ?_⟩
  rw [hmod, hexact]
  decide

end PolishCalc
