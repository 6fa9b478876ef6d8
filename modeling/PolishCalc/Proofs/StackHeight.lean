import PolishCalc.Proofs.InstructionText
import PolishCalc.Proofs.StackCheck

/-! # How high the stack grows

Computing an expression needs one cell of the stack for a number or a variable.  An operator
needs what its left operand needs, and what its right operand needs on top of the left one's
value.  This number, `Expr.stackHeight`, can be read off the expression, and it is never more
than the depth of the tree.

How high code lets the stack grow can be read off the code in the same way.  The depth of the
stack before an instruction is the depth that the scan counts there, so the stack is never
higher than the greatest depth of the scan, `Code.peak` (`Memory.stack_length_le_peak`); a
failed instruction has only taken operands away.  If no instruction fails, the run gets to the
place where the scan counts most.  What is left is to compute the peak of lowered code, and it
is the height of the program's statements: between two statements the stack is empty.
-/
namespace PolishCalc

open Text (IsWord)

/-! ## The height of expressions and programs -/

namespace Expr

/-- The number of levels of an expression. -/
def depth : Expr → Nat
  | const _ => 1
  | var _ => 1
  | unary _ e => 1 + e.depth
  | binary _ l r => 1 + max l.depth r.depth

/-- The number of cells of the stack that computing an expression takes. -/
def stackHeight : Expr → Nat
  | const _ => 1
  | var _ => 1
  | unary _ e => e.stackHeight
  | binary _ l r => max l.stackHeight (1 + r.stackHeight)

theorem stackHeight_pos (e : Expr) : 0 < e.stackHeight := by
  induction e with
  | const v => exact Nat.one_pos
  | var name => exact Nat.one_pos
  | unary op e ih => exact ih
  | binary op l r ihl ihr =>
    rw [stackHeight]
    omega

/-- **A stack as high as the tree is deep is enough.** -/
theorem stackHeight_le_depth (e : Expr) : e.stackHeight ≤ e.depth := by
  induction e with
  | const v => exact Nat.le_refl 1
  | var name => exact Nat.le_refl 1
  | unary op e ih =>
    rw [stackHeight, depth]
    omega
  | binary op l r ihl ihr =>
    rw [stackHeight, depth]
    omega

end Expr

/-- The number of cells of the stack that the statement that needs most takes; none for the
program without statements. -/
def Program.stackHeight (p : Program) : Nat :=
  p.foldr (fun a height => max a.value.stackHeight height) 0

theorem Program.stackHeight_cons (a : Statement) (p : Program) :
    stackHeight (a :: p) = max a.value.stackHeight (stackHeight p) := rfl

/-! ## The peak of code -/

namespace Code

/-- The greatest depth that the scan counts, the start included. -/
def peak : Code → Int
  | [] => 0
  | i :: rest => max 0 (i.change + peak rest)

theorem peak_nonneg (code : Code) : 0 ≤ peak code := by
  cases code with
  | nil => exact Int.le_refl 0
  | cons i rest =>
    rw [peak]
    omega

theorem depth_cons (i : Instruction) (code : Code) : depth (i :: code) = i.change + depth code := by
  rw [← List.singleton_append, depth_append]
  simp [depth]

/-- The peak of code in two parts: that of the second part is counted from where the first
part ends. -/
theorem peak_append (front back : Code) :
    peak (front ++ back) = max (peak front) (depth front + peak back) := by
  induction front with
  | nil =>
    have := peak_nonneg back
    rw [List.nil_append, peak, depth, List.foldl_nil]
    omega
  | cons i rest ih =>
    rw [List.cons_append, peak, peak, ih, depth_cons]
    omega

/-- The scan never counts more than the peak. -/
theorem depth_take_le_peak (code : Code) (k : Nat) : depth (code.take k) ≤ peak code := by
  have hsplit := peak_append (code.take k) (code.drop k)
  have := peak_nonneg (code.drop k)
  rw [List.take_append_drop] at hsplit
  omega

/-- The scan gets to the peak. -/
theorem exists_depth_take_eq_peak (code : Code) :
    ∃ k ≤ code.length, depth (code.take k) = peak code := by
  induction code with
  | nil => exact ⟨0, Nat.le_refl 0, rfl⟩
  | cons i rest ih =>
    obtain ⟨k, hk, hpeak⟩ := ih
    by_cases htop : i.change + peak rest ≤ 0
    · refine ⟨0, Nat.zero_le _, ?_⟩
      rw [peak, List.take_zero, depth, List.foldl_nil]
      omega
    · refine ⟨k + 1, Nat.succ_le_succ hk, ?_⟩
      rw [peak, List.take_succ_cons, depth_cons, hpeak]
      omega

variable {front code : Code} {m m' : Memory}

/-- The scan tracks the memory through instructions that succeed. -/
theorem Tracks.execAll (h : front.Tracks m) (hrun : m.execAll code = ⟨m', none⟩) :
    Tracks (front ++ code) m' := by
  induction code generalizing front m with
  | nil =>
    cases hrun
    rwa [List.append_nil]
  | cons i rest ih =>
    rw [Memory.execAll_cons, Outcome.andThen_eq_none_iff] at hrun
    obtain ⟨next, hexec, hrest⟩ := hrun
    rw [← List.singleton_append, ← List.append_assoc]
    exact ih (h.append hexec) hrest

/-- Code that comes to its end leaves as many values on the stack as the scan counts. -/
theorem stack_length_of_execAll (hrun : Memory.execAll {} code = ⟨m, none⟩) :
    (m.stack.length : Int) = depth code :=
  (Tracks.nil.execAll hrun).length

end Code

namespace Memory

variable {code : Code} {m m' : Memory}

/-- On the way to an end without a fault there is none. -/
theorem exists_execAll_take (h : m.execAll code = ⟨m', none⟩) (k : Nat) :
    ∃ next, m.execAll (code.take k) = ⟨next, none⟩ := by
  have hsplit := execAll_append m (code.take k) (code.drop k)
  rw [List.take_append_drop, h] at hsplit
  obtain ⟨next, hnext, -⟩ := Outcome.andThen_eq_none_iff.mp hsplit.symm
  exact ⟨next, hnext⟩

/-- **The stack never grows above the peak of the code,** whether or not an instruction
fails. -/
theorem stack_length_le_peak (code : Code) (k : Nat) :
    ((execAll {} (code.take k)).state.stack.length : Int) ≤ code.peak := by
  rcases hrun : execAll {} (code.take k) with ⟨m, _ | f⟩
  · rw [Code.stack_length_of_execAll hrun]
    exact code.depth_take_le_peak k
  · -- The failed instruction has taken its operands off the stack that was there before it.
    have hfault : (Outcome.run exec {} (code.take k)).fault = some f := congrArg Outcome.fault hrun
    obtain ⟨j, i, before, hstops⟩ := Outcome.exists_stopsAt hfault
    have hstate : m = before.withStack (before.stack.drop i.needs) := by
      rw [← exec_state_of_fault hstops.fails, ← hstops.run_eq]
      exact (congrArg Outcome.state hrun).symm
    have hbefore := Code.stack_length_of_execAll hstops.reached
    rw [List.take_take] at hbefore
    have hpeak := code.depth_take_le_peak (min j k)
    rw [hstate, withStack_stack, List.length_drop]
    omega

/-- **If no instruction fails, the stack grows to the peak of the code.** -/
theorem exists_stack_length_eq_peak (h : execAll {} code = ⟨m, none⟩) :
    ∃ k ≤ code.length, ((execAll {} (code.take k)).state.stack.length : Int) = code.peak := by
  obtain ⟨k, hk, hpeak⟩ := code.exists_depth_take_eq_peak
  obtain ⟨next, hnext⟩ := exists_execAll_take h k
  refine ⟨k, hk, ?_⟩
  rw [hnext, ← hpeak]
  exact Code.stack_length_of_execAll hnext

end Memory

/-! ## The peak of lowered code -/

namespace Code

/-- The code of an expression leaves one value. -/
theorem depth_lower (e : Expr) : depth e.lower = 1 := by
  induction e with
  | const v => rfl
  | var name => rfl
  | unary op e ih =>
    rw [Expr.lower_unary, depth_append_singleton, ih]
    rfl
  | binary op l r ihl ihr =>
    rw [Expr.lower_binary, depth_append_singleton, depth_append, ihl, ihr]
    rfl

/-- **The peak of an expression's code is the expression's height.** -/
theorem peak_lower (e : Expr) : peak e.lower = e.stackHeight := by
  induction e with
  | const v => rfl
  | var name => rfl
  | unary op e ih =>
    have := e.stackHeight_pos
    rw [Expr.lower_unary, peak_append, ih, depth_lower, Expr.stackHeight]
    show max _ (1 + max 0 (0 + 0)) = _
    omega
  | binary op l r ihl ihr =>
    have := r.stackHeight_pos
    rw [Expr.lower_binary, peak_append, peak_append, ihl, ihr, depth_append, depth_lower,
      depth_lower, Expr.stackHeight]
    show max _ (1 + 1 + max 0 (-1 + 0)) = _
    omega

theorem change_last (a : Statement) : a.last.change = -1 := by
  cases a <;> rfl

theorem depth_lower_statement (a : Statement) : depth a.lower = 0 := by
  rw [Statement.lower_eq, depth_append_singleton, depth_lower, change_last]
  rfl

theorem peak_lower_statement (a : Statement) : peak a.lower = a.value.stackHeight := by
  have := a.value.stackHeight_pos
  rw [Statement.lower_eq, peak_append, peak_lower, depth_lower, peak, peak, change_last]
  omega

/-- **The peak of a program's code is the program's height.** -/
theorem peak_lower_program (p : Program) : peak p.lower = p.stackHeight := by
  induction p with
  | nil => rfl
  | cons a rest ih =>
    rw [Program.lower_cons, peak_append, peak_lower_statement, depth_lower_statement, ih,
      Program.stackHeight_cons]
    omega

end Code

/-! ## Compiled programs -/

/-- Execute the first `k` instructions of the machine's code, on an empty memory. -/
def Machine.executeFor (m : Machine) (k : Nat) : Outcome Machine :=
  (Memory.execAll {} (m.code.take k)).map m.withMemory

theorem Machine.executeFor_of_length_le {m : Machine} {k : Nat} (h : m.code.length ≤ k) :
    m.executeFor k = m.execute := by
  rw [executeFor, List.take_of_length_le h, execute_eq_execAll]

/-- **How high the stack grows when a compiled program is executed.**  The height of an
expression is never more than its depth.  If the names of a program are words, then a new
machine takes the compiled lines; after any number of executed instructions, also if one of
them has failed, there are no more values on its stack than the height of the program; and if
executing comes to its end, there have been as many at some time. -/
theorem compiled_code_grows_stack_to_height (p : Program) :
    (∀ e : Expr, e.stackHeight ≤ e.depth) ∧
    ((∀ name ∈ p.names, IsWord name) →
      let assembled := Machine.assemble {} p.compile
      let m := assembled.state
      assembled.fault = none ∧
      (∀ k, m.code.length ≤ k → m.executeFor k = m.execute) ∧
      (∀ k, (m.executeFor k).state.stack.length ≤ p.stackHeight) ∧
      (m.execute.fault = none →
        ∃ k ≤ m.code.length, (m.executeFor k).state.stack.length = p.stackHeight)) := by
  refine ⟨Expr.stackHeight_le_depth, ?_⟩
  intro words assembled m
  have hassembled : assembled = ⟨{ code := p.lower }, none⟩ := Program.assemble_compile words
  have hpeak : m.code.peak = p.stackHeight := by
    show assembled.state.code.peak = _
    rw [hassembled]
    exact Code.peak_lower_program p
  refine ⟨by rw [hassembled], fun k hk => Machine.executeFor_of_length_le hk, ?_, ?_⟩
  · intro k
    have hle : ((m.executeFor k).state.stack.length : Int) ≤ m.code.peak :=
      Memory.stack_length_le_peak m.code k
    rw [hpeak] at hle
    exact Int.ofNat_le.mp hle
  · intro hnone
    rw [Machine.execute_fault] at hnone
    have hrun : Memory.execAll {} m.code = ⟨(Memory.execAll {} m.code).state, none⟩ :=
      congrArg (Outcome.mk _) hnone
    obtain ⟨k, hk, heq⟩ := Memory.exists_stack_length_eq_peak hrun
    rw [hpeak] at heq
    exact ⟨k, hk, Int.ofNat_inj.mp heq⟩

/-- Two statements, of which the first needs more cells, though its tree is of the same depth
as the other's: its right operands are the deep ones.  The other program fails when three
values have been on the stack. -/
theorem compiled_code_grows_stack_to_height_of_examples :
    let right : Expr := .binary .add (.const 1) (.binary .mul (.const 2) (.const 3))
    let left : Expr := .binary .sub (.binary .mul (.const 2) (.const 3)) (.var "x")
    let p : Program := [.assign "x" right, .print left]
    let m := (Machine.assemble {} p.compile).state
    let q : Program := [.print (.binary .add (.const 1) (.binary .div (.const 2) (.const 0)))]
    right.stackHeight ≤ right.depth ∧ right.stackHeight = 3 ∧ left.stackHeight = 2 ∧
      (∀ name ∈ p.names, IsWord name) ∧ m.execute.fault = none ∧
      (∃ k ≤ m.code.length, (m.executeFor k).state.stack.length = 3) ∧
      (Machine.assemble {} q.compile).state.execute.fault = some .divideByZero ∧
      ∀ k, ((Machine.assemble {} q.compile).state.executeFor k).state.stack.length ≤ 3 := by
  intro right left p m q
  obtain ⟨hdepth, hp⟩ := compiled_code_grows_stack_to_height p
  obtain ⟨-, hq⟩ := compiled_code_grows_stack_to_height q
  have words : ∀ name ∈ p.names, IsWord name := by decide
  obtain ⟨-, -, -, hreached⟩ := hp words
  obtain ⟨-, -, hbound, -⟩ := hq nofun
  have hnone : m.execute.fault = none := by decide
  exact ⟨hdepth right, rfl, rfl, words, hnone, hreached hnone, by decide, hbound⟩

end PolishCalc
