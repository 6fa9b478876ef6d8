import PolishCalc.Proofs.Evaluation

/-! # Substitution for what is bound

An expression asks its store for the values of its variables, one occurrence at a time, and leaves
the store as it is.  So it does not matter whether a store answers with a value or whether the
value stands in the expression already: every occurrence contributes the same value, or the same
fault, at the same place among its neighbours.  `Expr.eval_substitute` says this of any expressions
in place of the variables, as long as each has, in the store at hand, the value that is read for
its variable from the other store, or the fault if there is none to read.

Binding one name is the case in which a single variable is replaced (`Expr.eval_replace`).
-/
namespace PolishCalc

/-- Binding a name changes what is read for it, and nothing else. -/
theorem Bindings.read_set (b : Bindings) (name other : String) (value : Int32) :
    (b.set name value).read other = if other = name then .ok value else b.read other := by
  rw [read, get?_set]
  by_cases h : other = name
  · rw [if_pos h, if_pos h]
  · rw [if_neg h, if_neg h, read]

namespace Expr

/-! ## Replacing variables -/

/-- The expression with `f name` in place of every variable `name`. -/
def substitute (f : String → Expr) : Expr → Expr
  | const v => const v
  | var name => f name
  | unary op e => unary op (e.substitute f)
  | binary op l r => binary op (l.substitute f) (r.substitute f)

/-- The expression with `d` in place of the variable `name`, wherever it occurs. -/
def replace (e : Expr) (name : String) (d : Expr) : Expr :=
  e.substitute fun other => if other = name then d else var other

/-- A variable that a number replaces is not read any more; all other occurrences stay. -/
theorem names_replace_const (e : Expr) (name : String) (value : Int32) :
    (e.replace name (const value)).names = e.names.filter (· ≠ name) := by
  induction e with
  | const v => rfl
  | var other =>
    by_cases h : other = name <;> simp [replace, substitute, names, h]
  | unary op e ih => exact ih
  | binary op l r ihl ihr =>
    rw [names, List.filter_append, ← ihl, ← ihr]
    rfl

/-! ## Values after replacing -/

/-- **Substitution.**  An expression has the value, or the fault, in one store that it has in
another one after its variables are replaced by expressions of their values there. -/
theorem eval_substitute {e : Expr} {f : String → Expr} {b b' : Bindings}
    (same : ∀ name ∈ e.names, (f name).eval b' = b.read name) :
    (e.substitute f).eval b' = e.eval b := by
  induction e with
  | const v => rfl
  | var name => exact same name (List.mem_singleton_self name)
  | unary op e ih => rw [substitute, eval_unary, eval_unary, ih same]
  | binary op l r ihl ihr =>
    obtain ⟨hl, hr⟩ := List.forall_mem_append.mp same
    rw [substitute, eval_binary, eval_binary, ihl hl, ihr hr]

/-- **One name:** binding it to the value of `d` and putting `d` in its place are the same. -/
theorem eval_replace {d : Expr} {b : Bindings} {value : Int32} (hd : d.eval b = .ok value)
    (e : Expr) (name : String) : (e.replace name d).eval b = e.eval (b.set name value) := by
  refine eval_substitute fun other _ => ?_
  rw [Bindings.read_set]
  by_cases h : other = name
  · rw [if_pos h, if_pos h, hd]
  · rw [if_neg h, if_neg h, eval]

end Expr

/-- **Binding a name is replacing it.**  After a name is bound to a number, an expression has the
value, or the fault, that it has before with the number in place of every variable of that name;
of the variables that it reads none but these are replaced. -/
theorem binding_a_name_is_replacing_it (e : Expr) (name : String) (value : Int32) (b : Bindings) :
    e.eval (b.set name value) = (e.replace name (.const value)).eval b ∧
    (e.replace name (.const value)).names = e.names.filter (· ≠ name) :=
  ⟨(Expr.eval_replace rfl e name).symm, e.names_replace_const name value⟩

/-- The replaced divisor is zero, and still the variable on the left is reported. -/
example :
    ((Expr.binary .div (.var "x") (.var "y")).replace "y" (.const 0)).eval {} =
      .error (.uninitialized "x") := by rfl

end PolishCalc
