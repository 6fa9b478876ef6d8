import PolishCalc.Proofs.StoppingPlace

/-! # Evaluation is strict

An operator evaluates all of its operands, the left one before the right one, and only then
itself.  So evaluation meets the nodes of an expression in post-order, and goes on as long as
they have values: the fault of an expression is the first fault among its subexpressions in
post-order, each evaluated on its own (`Expr.fault?_eq_findSome?`).  In particular there is no
fault without effect.  One anywhere below an operator is a fault of the operator, and it does
not help that a product with zero could be known without its other factor.
-/
namespace PolishCalc

namespace Expr

/-! ## Subexpressions in post-order -/

/-- The subexpressions of an expression, itself included, in post-order: those of the left
operand, those of the right operand, and then the node. -/
def postorder : Expr → List Expr
  | const v => [const v]
  | var name => [var name]
  | unary op e => e.postorder ++ [unary op e]
  | binary op l r => l.postorder ++ r.postorder ++ [binary op l r]

variable {b : Bindings} {d e : Expr} {f : Fault}

theorem mem_postorder_self (e : Expr) : e ∈ e.postorder := by
  cases e <;> simp [postorder]

/-- What lies in an operand lies in the expression. -/
theorem mem_postorder_above (h : d ∈ e.postorder) (branch : Branch) :
    d ∈ (branch.above e).postorder := by
  cases branch <;> simp [Branch.above, postorder, h]

/-- **Post-order lists what stands at the end of a path,** and nothing else. -/
theorem mem_postorder_iff : d ∈ e.postorder ↔ ∃ path : Path, e = path.above d := by
  constructor
  · intro h
    induction e with
    | const v => exact ⟨[], (List.mem_singleton.mp h).symm⟩
    | var name => exact ⟨[], (List.mem_singleton.mp h).symm⟩
    | unary op e ih =>
      rcases List.mem_append.mp h with h | h
      · obtain ⟨path, rfl⟩ := ih h
        exact ⟨.only op :: path, rfl⟩
      · exact ⟨[], (List.mem_singleton.mp h).symm⟩
    | binary op l r ihl ihr =>
      rcases List.mem_append.mp h with h | h
      · rcases List.mem_append.mp h with h | h
        · obtain ⟨path, rfl⟩ := ihl h
          exact ⟨.left op r :: path, rfl⟩
        · obtain ⟨path, rfl⟩ := ihr h
          exact ⟨.right op l :: path, rfl⟩
      · exact ⟨[], (List.mem_singleton.mp h).symm⟩
  · rintro ⟨path, rfl⟩
    induction path with
    | nil => exact d.mem_postorder_self
    | cons branch path ih => exact mem_postorder_above ih branch

/-- The variables among the subexpressions are those that the expression reads. -/
theorem var_mem_postorder_iff {name : String} : var name ∈ e.postorder ↔ name ∈ e.names := by
  induction e with
  | const v => simp [postorder, names]
  | var other => simp [postorder, names]
  | unary op e ih => simp [postorder, names, ih]
  | binary op l r ihl ihr => simp [postorder, names, ihl, ihr]

/-! ## The first fault -/

/-- The fault that an expression has instead of a value, if it has none. -/
def fault? (b : Bindings) (e : Expr) : Option Fault :=
  match e.eval b with
  | .ok _ => none
  | .error f => some f

theorem fault?_eq_none_iff : e.fault? b = none ↔ ∃ v, e.eval b = .ok v := by
  rw [fault?]
  cases e.eval b with
  | ok v => exact ⟨fun _ => ⟨v, rfl⟩, fun _ => rfl⟩
  | error g => exact ⟨nofun, fun ⟨_, h⟩ => nomatch h⟩

theorem fault?_eq_some_iff : e.fault? b = some f ↔ e.eval b = .error f := by
  rw [fault?]
  cases e.eval b with
  | ok v => exact ⟨nofun, nofun⟩
  | error g => rw [Option.some.injEq, Except.error.injEq]

/-- The fault of the operand comes before that of the operator. -/
theorem fault?_unary (op : UnaryOp) (e : Expr) :
    (e.fault? b).or ((unary op e).fault? b) = (unary op e).fault? b := by
  cases he : e.eval b with
  | ok v => rw [fault?_eq_none_iff.mpr ⟨v, he⟩, Option.none_or]
  | error f =>
    have hunary : (unary op e).eval b = .error f := by rw [eval_unary, he, error_bind]
    rw [fault?_eq_some_iff.mpr he, fault?_eq_some_iff.mpr hunary, Option.some_or]

/-- The fault of the left operand comes first, then that of the right one. -/
theorem fault?_binary (op : BinaryOp) (l r : Expr) :
    ((l.fault? b).or (r.fault? b)).or ((binary op l r).fault? b) = (binary op l r).fault? b := by
  cases hl : l.eval b with
  | error f =>
    have hbinary : (binary op l r).eval b = .error f := by rw [eval_binary, hl, error_bind]
    rw [fault?_eq_some_iff.mpr hl, fault?_eq_some_iff.mpr hbinary, Option.some_or, Option.some_or]
  | ok v =>
    rw [fault?_eq_none_iff.mpr ⟨v, hl⟩, Option.none_or]
    cases hr : r.eval b with
    | error f =>
      have hbinary : (binary op l r).eval b = .error f := by
        rw [eval_binary, hl, ok_bind, hr, error_bind]
      rw [fault?_eq_some_iff.mpr hr, fault?_eq_some_iff.mpr hbinary, Option.some_or]
    | ok w => rw [fault?_eq_none_iff.mpr ⟨w, hr⟩, Option.none_or]

/-- **The fault of an expression is the first one in post-order.** -/
theorem fault?_eq_findSome? (b : Bindings) (e : Expr) :
    e.fault? b = e.postorder.findSome? (fault? b) := by
  induction e with
  | const v => rfl
  | var name => rw [postorder, List.findSome?_singleton]
  | unary op e ih =>
    rw [postorder, List.findSome?_append, ← ih, List.findSome?_singleton, fault?_unary]
  | binary op l r ihl ihr =>
    rw [postorder, List.findSome?_append, List.findSome?_append, ← ihl, ← ihr,
      List.findSome?_singleton, fault?_binary]

/-- A value needs values everywhere. -/
theorem eval_eq_ok_iff_postorder :
    (∃ v, e.eval b = .ok v) ↔ ∀ d ∈ e.postorder, ∃ v, d.eval b = .ok v := by
  rw [← fault?_eq_none_iff, fault?_eq_findSome?, List.findSome?_eq_none_iff]
  simp only [fault?_eq_none_iff]

/-- A fault is that of the first subexpression that has one. -/
theorem eval_eq_error_iff_postorder :
    e.eval b = .error f ↔
      ∃ front d back, e.postorder = front ++ d :: back ∧
        (∀ c ∈ front, ∃ v, c.eval b = .ok v) ∧ d.eval b = .error f := by
  rw [← fault?_eq_some_iff, fault?_eq_findSome?, List.findSome?_eq_some_iff]
  simp only [fault?_eq_none_iff, fault?_eq_some_iff]
  constructor
  · rintro ⟨front, d, back, hsplit, hd, hfront⟩
    exact ⟨front, d, back, hsplit, hfront, hd⟩
  · rintro ⟨front, d, back, hsplit, hfront, hd⟩
    exact ⟨front, d, back, hsplit, hd, hfront⟩

/-- An expression that reads a variable without a binding has no value. -/
theorem exists_error_of_unbound {name : String} (hread : name ∈ e.names)
    (hnone : b.get? name = none) : ∃ f, e.eval b = .error f := by
  cases he : e.eval b with
  | error f => exact ⟨f, rfl⟩
  | ok v =>
    obtain ⟨w, hw⟩ := eval_eq_ok_iff_postorder.mp ⟨v, he⟩ _ (var_mem_postorder_iff.mpr hread)
    rw [eval, Bindings.read, hnone] at hw
    cases hw

end Expr

/-- **Evaluation is strict, from left to right.**  An expression has a value exactly when all
of its subexpressions have one, each evaluated on its own.  Otherwise its fault is that of the
first subexpression, in post-order, that has no value.  So wherever a subexpression without a
value stands, the whole has none, and a factor of zero does not change that. -/
theorem evaluation_is_strict_from_left_to_right (b : Bindings) (e : Expr) :
    (∀ d, d ∈ e.postorder ↔ ∃ path : Path, e = path.above d) ∧
    ((∃ v, e.eval b = .ok v) ↔ ∀ d ∈ e.postorder, ∃ v, d.eval b = .ok v) ∧
    (∀ f, e.eval b = .error f ↔
      ∃ front d back, e.postorder = front ++ d :: back ∧
        (∀ c ∈ front, ∃ v, c.eval b = .ok v) ∧ d.eval b = .error f) ∧
    (∀ (path : Path) f, e.eval b = .error f → ∃ g, (path.above e).eval b = .error g) ∧
    (∀ zero : Expr, zero.eval b = .ok 0 → ∀ f, e.eval b = .error f →
      (Expr.binary .mul zero e).eval b = .error f ∧
        (Expr.binary .mul e zero).eval b = .error f) := by
  refine ⟨fun d => Expr.mem_postorder_iff, Expr.eval_eq_ok_iff_postorder,
    fun f => Expr.eval_eq_error_iff_postorder, ?_, ?_⟩
  · intro path f he
    cases hpath : (path.above e).eval b with
    | error g => exact ⟨g, rfl⟩
    | ok v =>
      obtain ⟨w, hw⟩ :=
        Expr.eval_eq_ok_iff_postorder.mp ⟨v, hpath⟩ e (Expr.mem_postorder_iff.mpr ⟨path, rfl⟩)
      rw [he] at hw
      cases hw
  · intro zero hzero f he
    exact ⟨by rw [Expr.eval_binary, hzero, ok_bind, he, error_bind],
      by rw [Expr.eval_binary, he, error_bind]⟩

/-- Three faults that compete: a quotient by zero below a factor of zero, a variable without a
binding, and a root of a number below zero.  The quotient comes first in post-order, although
the root is nearer to the top. -/
theorem evaluation_is_strict_from_left_to_right_among_three_faults :
    let b : Bindings := ⟨[("x", 0)]⟩
    let quotient : Expr := .binary .div (.const 7) (.var "x")
    let product : Expr := .binary .mul (.const 0) (.binary .add quotient (.var "y"))
    let root : Expr := .unary .sqrt (.const (-4))
    (Expr.binary .sub product root).eval b = .error .divideByZero ∧
      (Expr.binary .sub root product).eval b = .error .negativeSquareRoot ∧
      (∃ g, (Expr.binary .mul (.const 0) root).eval b = .error g) ∧
      (Expr.binary .mul (.const 0) quotient).eval b = .error .divideByZero := by
  intro b quotient product root
  obtain ⟨-, -, hfirst, -⟩ :=
    evaluation_is_strict_from_left_to_right b (.binary .sub product root)
  obtain ⟨-, -, hother, -⟩ :=
    evaluation_is_strict_from_left_to_right b (.binary .sub root product)
  obtain ⟨-, -, -, hpath, -⟩ := evaluation_is_strict_from_left_to_right b root
  obtain ⟨-, -, -, -, hzero⟩ := evaluation_is_strict_from_left_to_right b quotient
  have hnumbers : ∀ c ∈ [.const 0, .const 7, .var "x"], ∃ v, Expr.eval b c = .ok v :=
    List.forall_mem_cons.mpr ⟨⟨0, rfl⟩, List.forall_mem_cons.mpr ⟨⟨7, rfl⟩,
      List.forall_mem_singleton.mpr ⟨0, rfl⟩⟩⟩
  refine ⟨?_, ?_, ?_, ?_⟩
  · exact (hfirst _).mpr ⟨[.const 0, .const 7, .var "x"], quotient, _, rfl, hnumbers, rfl⟩
  · exact (hother _).mpr
      ⟨[.const (-4)], root, _, rfl, List.forall_mem_singleton.mpr ⟨-4, rfl⟩, rfl⟩
  · exact hpath [.right .mul (.const 0)] .negativeSquareRoot rfl
  · exact (hzero (.const 0) rfl .divideByZero rfl).1

end PolishCalc
