import PolishCalc.Session

/-! # Values and faults of expressions

An expression has a value or a fault, and the fault is one of three: a divisor of
zero, a root of a number below zero, or a variable without a binding.  So neither
an expression nor a program that is run directly ever reports a fault that belongs
to the reader or to the stack machine.
-/
namespace PolishCalc

theorem UnaryOp.apply_fault {op : UnaryOp} {v : Int32} {f : Fault} (h : op.apply v = .error f) :
    f = .negativeSquareRoot := by
  cases op with
  | negate => cases h
  | sqrt =>
    rw [apply] at h
    split at h
    · cases h
      rfl
    · cases h

theorem BinaryOp.apply_fault {op : BinaryOp} {v w : Int32} {f : Fault}
    (h : op.apply v w = .error f) : f = .divideByZero := by
  cases op with
  | add | sub | mul => cases h
  | div | mod =>
    rw [apply] at h
    split at h
    · cases h
      rfl
    · cases h

theorem Bindings.read_fault {b : Bindings} {name : String} {f : Fault}
    (h : b.read name = .error f) : f = .uninitialized name ∧ b.get? name = none := by
  unfold read at h
  split at h
  · cases h
  · rename_i hnone
    cases h
    exact ⟨rfl, hnone⟩

namespace Expr

variable {b : Bindings}

theorem eval_unary (op : UnaryOp) (e : Expr) :
    (unary op e).eval b = e.eval b >>= op.apply := rfl

theorem eval_binary (op : BinaryOp) (l r : Expr) :
    (binary op l r).eval b = l.eval b >>= fun v => r.eval b >>= op.apply v := rfl

/-- **The faults of evaluation:** arithmetic, or a variable of the expression that
is not bound. -/
theorem eval_fault {e : Expr} {f : Fault} (h : e.eval b = .error f) :
    f = .divideByZero ∨ f = .negativeSquareRoot ∨
      ∃ name ∈ e.names, f = .uninitialized name ∧ b.get? name = none := by
  induction e with
  | const v => cases h
  | var name =>
    obtain ⟨hf, hnone⟩ := Bindings.read_fault h
    exact .inr (.inr ⟨name, List.mem_singleton_self name, hf, hnone⟩)
  | unary op e ih =>
    rw [eval_unary, bind_eq_error_iff] at h
    rcases h with he | ⟨v, -, hop⟩
    · exact ih he
    · exact .inr (.inl (UnaryOp.apply_fault hop))
  | binary op l r ihl ihr =>
    rw [eval_binary, bind_eq_error_iff] at h
    rcases h with hl | ⟨v, -, h⟩
    · rcases ihl hl with hf | hf | ⟨name, hn, hf⟩
      · exact .inl hf
      · exact .inr (.inl hf)
      · exact .inr (.inr ⟨name, List.mem_append_left _ hn, hf⟩)
    · rcases bind_eq_error_iff.mp h with hr | ⟨w, -, hop⟩
      · rcases ihr hr with hf | hf | ⟨name, hn, hf⟩
        · exact .inl hf
        · exact .inr (.inl hf)
        · exact .inr (.inr ⟨name, List.mem_append_right _ hn, hf⟩)
      · exact .inl (BinaryOp.apply_fault hop)

/-- Evaluation knows no stack. -/
theorem eval_ne_emptyStack (e : Expr) : e.eval b ≠ .error .emptyStack := by
  intro h
  rcases eval_fault h with hf | hf | ⟨_, _, hf, _⟩ <;> cases hf

end Expr

/-! ## Programs -/

namespace Session

variable {s : Session} {a : Statement}

theorem perform_of_ok {v : Int32} (h : a.value.eval s.bindings = .ok v) :
    s.perform a = ⟨s.accept a v, none⟩ := by
  rw [perform, h]
  rfl

theorem perform_of_error {f : Fault} (h : a.value.eval s.bindings = .error f) :
    s.perform a = ⟨s, some f⟩ := by
  rw [perform, h]
  rfl

/-- A statement uses the value of its expression, or fails and changes nothing. -/
theorem perform_cases (s : Session) (a : Statement) :
    (∃ v, a.value.eval s.bindings = .ok v ∧ s.perform a = ⟨s.accept a v, none⟩) ∨
    (∃ f, a.value.eval s.bindings = .error f ∧ s.perform a = ⟨s, some f⟩) := by
  cases hv : a.value.eval s.bindings with
  | ok v => exact .inl ⟨v, rfl, perform_of_ok hv⟩
  | error f => exact .inr ⟨f, rfl, perform_of_error hv⟩

theorem performAll_cons (s : Session) (a : Statement) (rest : Program) :
    s.performAll (a :: rest) = (s.perform a).andThen fun next => next.performAll rest := rfl

/-- A program that is run directly never reports an empty stack. -/
theorem performAll_ne_emptyStack (s : Session) (p : Program) :
    (s.performAll p).fault ≠ some .emptyStack := by
  induction p generalizing s with
  | nil => exact nofun
  | cons a rest ih =>
    rw [performAll_cons]
    cases hv : a.value.eval s.bindings with
    | ok v =>
      rw [perform_of_ok hv, Outcome.andThen_none]
      exact ih _
    | error f =>
      rw [perform_of_error hv, Outcome.andThen_some]
      intro h
      exact a.value.eval_ne_emptyStack (hv.trans (congrArg Except.error (Option.some.inj h)))

end Session
end PolishCalc
