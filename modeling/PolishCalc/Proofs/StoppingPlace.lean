import Mathlib.Data.List.Forall2
import PolishCalc.Proofs.InstructionText
import PolishCalc.Proofs.LoweredRuns

/-! # Where an expression stops

An expression without a value has exactly one node that is at fault: the node's own
operands have values, the node has none, and evaluation gets that far, because every
operand to the left of the way down to it has a value too (`Expr.StopsAt`).

The node says what a machine has left on its stack when it stops.  The operands of the
failing operator are gone.  The operators above it that hold the node in their right
operand have computed their left one, and nobody has taken that value yet; the operators
that hold it in their left or only operand have computed nothing.  So the values of those
left operands are the residue, the one of the innermost operator on top
(`Expr.StopsAt.residue`), and it lies on whatever the stack was before.
-/
namespace PolishCalc

open Text (IsWord)

/-! ## Nodes -/

namespace Expr

/-- The operands of the outermost operator, from left to right. -/
def operands : Expr → List Expr
  | const _ => []
  | var _ => []
  | unary _ e => [e]
  | binary _ l r => [l, r]

/-- The instruction that computes an expression's value from those of its operands. -/
def instruction : Expr → Instruction
  | const v => .push v
  | var name => .load name
  | unary op _ => .unary op
  | binary op _ _ => .binary op

/-- The code of an expression computes the operands first. -/
theorem lower_eq_operands (e : Expr) :
    e.lower = e.operands.flatMap lower ++ [e.instruction] := by
  cases e <;> simp [operands, instruction]

/-- The node itself is at fault: its operands have values, and it has none. -/
def Faulty (b : Bindings) (node : Expr) (f : Fault) : Prop :=
  (∀ e ∈ node.operands, ∃ v, e.eval b = .ok v) ∧ node.eval b = .error f

end Expr

/-- The way from an operator down to one of its operands, with the operand beside it. -/
inductive Branch where
  | only (op : UnaryOp)
  | left (op : BinaryOp) (beside : Expr)
  | right (op : BinaryOp) (beside : Expr)
deriving DecidableEq, Repr

namespace Branch

/-- The expression that an operator makes of the operand at the end of the branch. -/
def above : Branch → Expr → Expr
  | only op, e => .unary op e
  | left op r, e => .binary op e r
  | right op l, e => .binary op l e

/-- The left operand of an operator that is left for its right one. -/
def passed? : Branch → Option Expr
  | only _ => none
  | left _ _ => none
  | right _ l => some l

end Branch

/-- The way from an expression down to one of its nodes, the outermost operator first. -/
abbrev Path := List Branch

namespace Path

/-- The expression that has `node` at the end of a path. -/
def above (path : Path) (node : Expr) : Expr := path.foldr Branch.above node

/-- The left operands of the operators that hold the path's end in their right operand, the
innermost operator first. -/
def passed (path : Path) : List Expr := (path.filterMap Branch.passed?).reverse

theorem passed_cons (branch : Branch) (path : Path) :
    passed (branch :: path) = path.passed ++ branch.passed?.toList := by
  cases branch with
  | only op | left op r => exact (List.append_nil _).symm
  | right op l => exact List.reverse_cons

end Path

namespace Expr

/-- Evaluation of `e` stops at `node`, at the end of `path`: the node is at fault, and the
operands that are evaluated before it have values. -/
structure StopsAt (b : Bindings) (e : Expr) (path : Path) (node : Expr) (f : Fault) : Prop where
  whole : e = path.above node
  faulty : node.Faulty b f
  reached : ∀ l ∈ path.passed, ∃ v, l.eval b = .ok v

variable {b : Bindings} {e node node' : Expr} {path path' : Path} {f f' : Fault}

theorem Faulty.stopsAt (h : e.Faulty b f) : e.StopsAt b [] e f := ⟨rfl, h, nofun⟩

/-- One operator more above the place. -/
theorem StopsAt.above (h : e.StopsAt b path node f) (branch : Branch)
    (value : ∀ l ∈ branch.passed?, ∃ v, l.eval b = .ok v) :
    (branch.above e).StopsAt b (branch :: path) node f := by
  refine ⟨by rw [h.whole]; rfl, h.faulty, ?_⟩
  intro l hl
  rw [Path.passed_cons] at hl
  rcases List.mem_append.mp hl with hl | hl
  · exact h.reached l hl
  · exact value l (Option.mem_toList.mp hl)

/-- The place lies in the operand that the path enters. -/
theorem StopsAt.below {branch : Branch} (h : e.StopsAt b (branch :: path) node f) :
    ∃ e', e = branch.above e' ∧ e'.StopsAt b path node f ∧
      ∀ l ∈ branch.passed?, ∃ v, l.eval b = .ok v := by
  have hpassed := h.reached
  rw [Path.passed_cons] at hpassed
  obtain ⟨hpath, hbranch⟩ := List.forall_mem_append.mp hpassed
  exact ⟨Path.above path node, h.whole, ⟨rfl, h.faulty, hpath⟩,
    fun l hl => hbranch l (Option.mem_toList.mpr hl)⟩

/-! ## There is one such place -/

/-- An operand without a value, behind operands that have one, is what an operator stops
at. -/
theorem eval_above {branch : Branch} (value : ∀ l ∈ branch.passed?, ∃ v, l.eval b = .ok v)
    (h : e.eval b = .error f) : (branch.above e).eval b = .error f := by
  cases branch with
  | only op =>
    rw [Branch.above, eval_unary, h, error_bind]
  | left op r =>
    rw [Branch.above, eval_binary, h, error_bind]
  | right op l =>
    obtain ⟨v, hv⟩ := value l rfl
    rw [Branch.above, eval_binary, hv, ok_bind, h, error_bind]

/-- The fault of the place is the fault of the expression. -/
theorem StopsAt.eval (h : e.StopsAt b path node f) : e.eval b = .error f := by
  induction path generalizing e with
  | nil => exact h.whole ▸ h.faulty.2
  | cons branch path ih =>
    obtain ⟨e', rfl, hbelow, value⟩ := h.below
    exact eval_above value (ih hbelow)

/-- **An expression without a value stops somewhere.** -/
theorem exists_stopsAt (h : e.eval b = .error f) : ∃ path node, e.StopsAt b path node f := by
  induction e with
  | const v => cases h
  | var name => exact ⟨[], _, Faulty.stopsAt ⟨nofun, h⟩⟩
  | unary op e ih =>
    rcases bind_eq_error_iff.mp (eval_unary op e ▸ h) with he | ⟨v, he, -⟩
    · obtain ⟨path, node, hstops⟩ := ih he
      exact ⟨_, node, hstops.above (.only op) nofun⟩
    · exact ⟨[], _, Faulty.stopsAt ⟨List.forall_mem_singleton.mpr ⟨v, he⟩, h⟩⟩
  | binary op l r ihl ihr =>
    rcases bind_eq_error_iff.mp (eval_binary op l r ▸ h) with hl | ⟨v, hl, hrest⟩
    · obtain ⟨path, node, hstops⟩ := ihl hl
      exact ⟨_, node, hstops.above (.left op r) nofun⟩
    · rcases bind_eq_error_iff.mp hrest with hr | ⟨w, hr, -⟩
      · obtain ⟨path, node, hstops⟩ := ihr hr
        refine ⟨_, node, hstops.above (.right op l) ?_⟩
        rintro _ ⟨⟩
        exact ⟨v, hl⟩
      · refine ⟨[], _, Faulty.stopsAt ⟨?_, h⟩⟩
        exact List.forall_mem_cons.mpr ⟨⟨v, hl⟩, List.forall_mem_singleton.mpr ⟨w, hr⟩⟩

/-- Below a node that is at fault itself nothing stops. -/
theorem Faulty.not_stopsAt_below {branch : Branch} (h : e.Faulty b f) :
    ¬ e.StopsAt b (branch :: path) node f' := by
  intro hstops
  obtain ⟨e', rfl, hbelow, -⟩ := hstops.below
  have hmem : e' ∈ (branch.above e').operands := by cases branch <;> simp [Branch.above, operands]
  obtain ⟨v, hv⟩ := h.1 e' hmem
  rw [hbelow.eval] at hv
  cases hv

/-- Only one operand of an operator has no value behind operands that have one. -/
theorem above_inj {branch branch' : Branch} {d d' : Expr} (h : branch.above d = branch'.above d')
    (value : ∀ l ∈ branch.passed?, ∃ v, l.eval b = .ok v)
    (value' : ∀ l ∈ branch'.passed?, ∃ v, l.eval b = .ok v)
    (hd : d.eval b = .error f) (hd' : d'.eval b = .error f') : branch' = branch ∧ d' = d := by
  have absurd_of {l : Expr} {g : Fault} (hvalue : ∃ v, l.eval b = .ok v)
      (herror : l.eval b = .error g) : False := by
    obtain ⟨v, hv⟩ := hvalue
    rw [hv] at herror
    cases herror
  cases branch with
  | only op =>
    cases branch' <;> cases h
    exact ⟨rfl, rfl⟩
  | left op r =>
    cases branch' with
    | only op' => cases h
    | left op' r' =>
      cases h
      exact ⟨rfl, rfl⟩
    | right op' l' =>
      cases h
      exact (absurd_of (value' _ rfl) hd).elim
  | right op l =>
    cases branch' with
    | only op' => cases h
    | left op' r' =>
      cases h
      exact (absurd_of (value _ rfl) hd').elim
    | right op' l' =>
      cases h
      exact ⟨rfl, rfl⟩

/-- **An expression stops at one place at most.** -/
theorem StopsAt.unique (h : e.StopsAt b path node f) (h' : e.StopsAt b path' node' f') :
    path' = path ∧ node' = node ∧ f' = f := by
  -- Both paths are followed from the top, as long as they enter the same operand.
  induction path generalizing e path' with
  | nil =>
    obtain rfl : e = node := h.whole
    cases path' with
    | nil =>
      obtain rfl : e = node' := h'.whole
      exact ⟨rfl, rfl, Except.error.inj (h'.eval.symm.trans h.eval)⟩
    | cons branch' path' => exact absurd h' h.faulty.not_stopsAt_below
  | cons branch path ih =>
    obtain ⟨d, rfl, hbelow, value⟩ := h.below
    cases path' with
    | nil =>
      obtain rfl : branch.above d = node' := h'.whole
      exact absurd h h'.faulty.not_stopsAt_below
    | cons branch' path' =>
      obtain ⟨d', hd', hbelow', value'⟩ := h'.below
      obtain ⟨rfl, rfl⟩ := above_inj hd' value value' hbelow.eval hbelow'.eval
      obtain ⟨rfl, hrest⟩ := ih hbelow hbelow'
      exact ⟨rfl, hrest⟩

/-! ## What lies on the stack -/

/-- A node that is at fault itself has lost its operands. -/
theorem Faulty.residue (h : e.Faulty b f) : e.residue b = [] := by
  cases e with
  | const v | var name => rfl
  | unary op e =>
    obtain ⟨v, hv⟩ := h.1 e List.mem_cons_self
    rw [Expr.residue, residue_of_ok hv]
  | binary op l r =>
    obtain ⟨v, hv⟩ := h.1 l List.mem_cons_self
    obtain ⟨w, hw⟩ := h.1 r (List.mem_cons_of_mem l List.mem_cons_self)
    rw [Expr.residue, hv, hw]

/-- **The residue is the values of the operands that were passed,** the innermost operator's
on top. -/
theorem StopsAt.residue (h : e.StopsAt b path node f) :
    List.Forall₂ (fun l v => l.eval b = .ok v) path.passed (e.residue b) := by
  induction path generalizing e with
  | nil =>
    obtain rfl : e = node := h.whole
    rw [h.faulty.residue]
    exact .nil
  | cons branch path ih =>
    obtain ⟨e', rfl, hbelow, value⟩ := h.below
    rw [Path.passed_cons]
    cases branch with
    | only op =>
      rw [Branch.passed?, Option.toList_none, List.append_nil, Branch.above, Expr.residue]
      exact ih hbelow
    | left op r =>
      rw [Branch.passed?, Option.toList_none, List.append_nil, Branch.above,
        residue_binary_of_left op hbelow.eval]
      exact ih hbelow
    | right op l =>
      obtain ⟨v, hv⟩ := value l rfl
      rw [Branch.above, residue_binary_of_right op hv hbelow.eval]
      exact List.rel_append (ih hbelow) (.cons hv .nil)

end Expr

/-! ## The run of an expression's code -/

namespace Memory

variable {b : Bindings} {e node : Expr} {path : Path} {f : Fault}

/-- The code of expressions that have values changes nothing but the stack. -/
theorem execAll_operands (m : Memory) {es : List Expr}
    (h : ∀ e ∈ es, ∃ v, e.eval m.bindings = .ok v) :
    ∃ stack, m.execAll (es.flatMap Expr.lower) = ⟨m.withStack stack, none⟩ := by
  induction es generalizing m with
  | nil => exact ⟨m.stack, rfl⟩
  | cons e rest ih =>
    obtain ⟨⟨v, hv⟩, hrest⟩ := List.forall_mem_cons.mp h
    obtain ⟨stack, hstack⟩ := ih (m.withStack (v :: m.stack)) hrest
    refine ⟨stack, ?_⟩
    rw [List.flatMap_cons, execAll_append, execAll_lower, hv, Outcome.ofValue_ok,
      Outcome.andThen_none, hstack, withStack_withStack]

/-- **The instruction that fails is that of the node at fault,** whatever the stack below. -/
theorem exists_exec_of_stopsAt (m : Memory) (h : e.StopsAt m.bindings path node f) :
    ∃ front back m', e.lower = front ++ node.instruction :: back ∧
      m.execAll front = ⟨m', none⟩ ∧ (m'.exec node.instruction).fault = some f := by
  induction path generalizing e m with
  | nil =>
    obtain rfl : e = node := h.whole
    obtain ⟨stack, hoperands⟩ := m.execAll_operands h.faulty.1
    refine ⟨e.operands.flatMap Expr.lower, [], _, e.lower_eq_operands, hoperands, ?_⟩
    have hrun := congrArg Outcome.fault (m.execAll_lower e)
    rw [e.lower_eq_operands, execAll_append, hoperands, Outcome.andThen_none, execAll_singleton,
      h.faulty.2] at hrun
    exact hrun
  | cons branch path ih =>
    obtain ⟨e', rfl, hbelow, value⟩ := h.below
    cases branch with
    | only op =>
      obtain ⟨front, back, m', hcode, hrest⟩ := ih m hbelow
      refine ⟨front, back ++ [.unary op], m', ?_, hrest⟩
      rw [Branch.above, Expr.lower_unary, hcode, List.append_assoc, List.cons_append]
    | left op r =>
      obtain ⟨front, back, m', hcode, hrest⟩ := ih m hbelow
      refine ⟨front, back ++ r.lower ++ [.binary op], m', ?_, hrest⟩
      rw [Branch.above, Expr.lower_binary, hcode]
      simp only [List.append_assoc, List.cons_append]
    | right op l =>
      obtain ⟨v, hv⟩ := value l rfl
      obtain ⟨front, back, m', hcode, hrun, hfault⟩ := ih (m.withStack (v :: m.stack)) hbelow
      refine ⟨l.lower ++ front, back ++ [.binary op], m', ?_, ?_, hfault⟩
      · rw [Branch.above, Expr.lower_binary, hcode]
        simp only [List.append_assoc, List.cons_append]
      · rw [execAll_append, execAll_lower, hv, Outcome.ofValue_ok, Outcome.andThen_none, hrun]

end Memory

namespace Machine

theorem stepAll_lower (m : Machine) (e : Expr) :
    m.stepAll e.lower =
      (Outcome.ofValue (m.toMemory.withStack (e.residue m.bindings ++ m.stack))
        (e.eval m.bindings) fun v => m.toMemory.withStack (v :: m.stack)).map m.withMemory := by
  rw [stepAll_eq, Memory.execAll_lower]

/-- **The step that fails** is that of the node at fault, on any machine. -/
theorem exists_step_of_stopsAt (m : Machine) {e node : Expr} {path : Path} {f : Fault}
    (h : e.StopsAt m.bindings path node f) :
    ∃ front back before, e.lower = front ++ node.instruction :: back ∧
      m.stepAll front = ⟨before, none⟩ ∧ (before.step node.instruction).fault = some f := by
  obtain ⟨front, back, m', hcode, hrun, hfault⟩ := m.toMemory.exists_exec_of_stopsAt h
  refine ⟨front, back, m.withMemory m', hcode, ?_, hfault⟩
  rw [stepAll_eq, hrun]
  rfl

end Machine

/-- **The code of an expression on a machine in any state.**  The lines of an expression
whose variables are words are read as instructions, and stepping these leaves bindings and
output alone.  If the expression has a value, no step fails, and the value is on top of the
stack.  If it has none, the fault is that of evaluation, and the instruction that fails is
that of the one node where evaluation stops; on the stack lie the values of the operands
that were passed on the way down to this node, the innermost operator's on top. -/
theorem lowered_expression_on_any_machine (e : Expr) (m : Machine)
    (words : ∀ name ∈ e.names, IsWord name) :
    ∃ code, Code.ofLines e.lower.lines = .ok code ∧
      let ran := m.stepAll code
      ran.state.bindings = m.bindings ∧ ran.state.output = m.output ∧
      (∀ v, e.eval m.bindings = .ok v → ran.fault = none ∧ ran.state.stack = v :: m.stack) ∧
      (∀ f, e.eval m.bindings = .error f →
        ran.fault = some f ∧
        ∃ path node residue,
          e.StopsAt m.bindings path node f ∧
          (∀ path' node' f', e.StopsAt m.bindings path' node' f' →
            path' = path ∧ node' = node ∧ f' = f) ∧
          (∃ front back before, code = front ++ node.instruction :: back ∧
            m.stepAll front = ⟨before, none⟩ ∧ (before.step node.instruction).fault = some f) ∧
          List.Forall₂ (fun l v => l.eval m.bindings = .ok v) path.passed residue ∧
          ran.state.stack = residue ++ m.stack) := by
  have hread : Code.ofLines e.lower.lines = .ok e.lower := by
    refine Code.ofLines_lines fun name hn => words name ?_
    rwa [Expr.names_lower] at hn
  refine ⟨e.lower, hread, ?_⟩
  intro ran
  have hran := m.stepAll_lower e
  cases heval : e.eval m.bindings with
  | ok v =>
    rw [heval] at hran
    have hstate : ran = ⟨m.withMemory (m.toMemory.withStack (v :: m.stack)), none⟩ := hran
    rw [hstate]
    refine ⟨rfl, rfl, ?_, nofun⟩
    rintro _ ⟨⟩
    exact ⟨rfl, rfl⟩
  | error f =>
    rw [heval] at hran
    have hstate : ran = ⟨m.withMemory (m.toMemory.withStack (e.residue m.bindings ++ m.stack)),
        some f⟩ := hran
    rw [hstate]
    refine ⟨rfl, rfl, nofun, ?_⟩
    rintro _ ⟨⟩
    obtain ⟨path, node, hstops⟩ := Expr.exists_stopsAt heval
    exact ⟨rfl, path, node, e.residue m.bindings, hstops, fun _ _ _ h => hstops.unique h,
      m.exists_step_of_stopsAt hstops, hstops.residue, rfl⟩

/-- A quotient by zero in the right operand of two operators, and below those in the only
operand of a root and the left operand of a remainder.  The values of `1` and of `2 * x` lie
on what was on the stack before; the operands of the quotient do not. -/
theorem lowered_expression_on_any_machine_at_quotient :
    let quotient : Expr := .binary .div (.const 7) (.var "z")
    let product : Expr := .binary .mul (.const 2) (.var "x")
    let e : Expr :=
      .binary .sub (.const 1)
        (.binary .add product (.unary .sqrt (.binary .mod quotient (.const 5))))
    let m : Machine := ⟨⟨⟨⟨[("z", 0), ("x", 3)]⟩, [8]⟩, [9]⟩, [.print]⟩
    (∀ name ∈ e.names, IsWord name) ∧
    ∃ code, Code.ofLines e.lower.lines = .ok code ∧
      (m.stepAll code).fault = some .divideByZero ∧
      (m.stepAll code).state.stack = [6, 1, 9] ∧
      (m.stepAll code).state.output = [8] := by
  intro quotient product e m
  have words : ∀ name ∈ e.names, IsWord name := by decide
  obtain ⟨code, hread, -, houtput, -, hfault⟩ := lowered_expression_on_any_machine e m words
  obtain ⟨hstop, path, node, residue, -, hunique, -, hpassed, hstack⟩ :=
    hfault .divideByZero (by decide)
  refine ⟨words, code, hread, hstop, ?_, houtput⟩
  have hplace : e.StopsAt m.bindings
      [.right .sub (.const 1), .right .add product, .only .sqrt, .left .mod (.const 5)] quotient
      .divideByZero := by
    refine ⟨rfl, ⟨?_, by decide⟩, ?_⟩
    · exact List.forall_mem_cons.mpr ⟨⟨7, rfl⟩, List.forall_mem_singleton.mpr ⟨0, rfl⟩⟩
    · exact List.forall_mem_cons.mpr ⟨⟨6, by decide⟩, List.forall_mem_singleton.mpr ⟨1, rfl⟩⟩
  obtain ⟨rfl, -, -⟩ := hunique _ _ _ hplace
  obtain ⟨v, rest, hproduct, hrest, rfl⟩ := List.forall₂_cons_left_iff.mp hpassed
  obtain ⟨w, below, hone, hbelow, rfl⟩ := List.forall₂_cons_left_iff.mp hrest
  obtain rfl := List.forall₂_nil_left_iff.mp hbelow
  obtain rfl : (6 : Int32) = v := Except.ok.inj (Eq.trans (by decide) hproduct)
  obtain rfl : (1 : Int32) = w := Except.ok.inj hone
  exact hstack

end PolishCalc
