import PolishCalc.IndexedRuns
import PolishCalc.Proofs.Evaluation
import PolishCalc.Proofs.IndexedStore

/-! # The index does not show in a run

A statement, or an instruction, reads names and binds at most one.  As long as the index of the
store is in step, it reads what it would read without the index, so it has the same value or
fault, and what it binds keeps the index in step.  Such a step has a result, therefore, and seen
without the index this is the result of the step on the bindings alone (`Outcome.Refines`).

The same follows for runs, once for all kinds of steps (`Outcome.run?_refines`).  A run of a
program, and an execution, clear the bindings before they start, and the index of a store without
entries is in step; so they need no condition at all on what was bound before.
-/
namespace PolishCalc

namespace Outcome

variable {σ τ α : Type} {inv : σ → Prop} {view : σ → τ}

/-- There is a result.  Its state satisfies `inv`, and seen through `view` it is `o`. -/
def Refines (inv : σ → Prop) (view : σ → τ) (o? : Option (Outcome σ)) (o : Outcome τ) : Prop :=
  ∃ ran, o? = some ran ∧ inv ran.state ∧ ran.map view = o

/-- **A run refines a run** if each step refines a step from where `inv` holds. -/
theorem run?_refines {step? : σ → α → Option (Outcome σ)} {step : τ → α → Outcome τ}
    (hstep : ∀ s a, inv s → Refines inv view (step? s a) (step (view s) a)) {s : σ} (hs : inv s)
    (as : List α) : Refines inv view (run? step? s as) (run step (view s) as) := by
  induction as generalizing s with
  | nil => exact ⟨⟨s, none⟩, rfl, hs, rfl⟩
  | cons a rest ih =>
    obtain ⟨⟨next, fault⟩, hnext, hinv, hview⟩ := hstep s a hs
    rw [run?, hnext, run_cons, ← hview]
    cases fault with
    | none => exact ih hinv
    | some f => exact ⟨⟨next, some f⟩, rfl, hinv, rfl⟩

end Outcome

open Outcome (Refines)

/-! ## Values -/

theorem liftExcept_eq {α : Type} (value : Except Fault α) :
    (liftExcept value : ExceptT Fault Option α) = ExceptT.mk (some value) := by
  cases value <;> rfl

theorem IndexedBindings.InStep.read_eq {b : IndexedBindings} (h : b.InStep) (name : String) :
    b.read name = ExceptT.mk (some (b.toBindings.read name)) := by
  rw [IndexedBindings.read, h.get?_eq, Bindings.read]
  cases b.toBindings.get? name <;> rfl

/-- **An expression is evaluated through the index as without it,** fault included. -/
theorem Expr.evalIndexed_eq {b : IndexedBindings} (h : b.InStep) (e : Expr) :
    e.evalIndexed b = ExceptT.mk (some (e.eval b.toBindings)) := by
  induction e with
  | const v => rfl
  | var name => exact h.read_eq name
  | unary op e ih =>
    rw [evalIndexed, ih, eval_unary]
    cases e.eval b.toBindings with
    | error f => rfl
    | ok v => exact liftExcept_eq (op.apply v)
  | binary op l r ihl ihr =>
    rw [evalIndexed, ihl, ihr, eval_binary]
    cases l.eval b.toBindings with
    | error f => rfl
    | ok v =>
      cases r.eval b.toBindings with
      | error f => rfl
      | ok w => exact liftExcept_eq (op.apply v w)

/-! ## Programs -/

namespace IndexedSession

variable {s : IndexedSession}

/-- The index of the session's store is in step. -/
def InStep (s : IndexedSession) : Prop := s.bindings.InStep

/-- A name is bound, and there is a slot for it. -/
theorem InStep.exists_bind (h : s.InStep) (name : String) (v : Int32) :
    ∃ next, s.bind name v = some next ∧ next.InStep ∧
      next.toSession = s.toSession.bind name v := by
  obtain ⟨b, hset, hb, hbindings⟩ := IndexedBindings.InStep.exists_set h name v
  refine ⟨{ s with bindings := b }, ?_, hb, ?_⟩
  · rw [bind, hset, Option.map_some]
  · rw [toSession, hbindings]
    rfl

theorem InStep.exists_accept (h : s.InStep) (a : Statement) (v : Int32) :
    ∃ next, s.accept a v = some next ∧ next.InStep ∧
      next.toSession = s.toSession.accept a v := by
  cases a with
  | assign name e => exact h.exists_bind name v
  | print e => exact ⟨s.emit v, rfl, h, rfl⟩

/-- A statement is performed through the index as without it. -/
theorem InStep.perform (h : s.InStep) (a : Statement) :
    Refines InStep toSession (s.perform a) (s.toSession.perform a) := by
  rw [IndexedSession.perform, Expr.evalIndexed_eq h, Session.perform]
  show Refines _ _ _ (Outcome.ofValue _ (a.value.eval s.bindings.toBindings) _)
  cases a.value.eval s.bindings.toBindings with
  | error f => exact ⟨⟨s, some f⟩, rfl, h, rfl⟩
  | ok v =>
    obtain ⟨next, haccept, hnext, hsession⟩ := h.exists_accept a v
    refine ⟨⟨next, none⟩, ?_, hnext, congrArg (Outcome.mk · none) hsession⟩
    show (s.accept a v).map (fun next => Outcome.mk next none) = _
    rw [haccept, Option.map_some]

/-- **A program is run through the index as without it,** whatever was bound before. -/
theorem run_refines (s : IndexedSession) (p : Program) :
    Refines InStep toSession (s.run p) (s.toSession.run p) := by
  have hstart : s.clear.InStep := IndexedBindings.inStep_empty
  exact Outcome.run?_refines (fun _ a h => h.perform a) hstart p

end IndexedSession

/-! ## Code -/

namespace IndexedMachine

variable {m : IndexedMachine}

/-- The index of the machine's store is in step. -/
def InStep (m : IndexedMachine) : Prop := m.bindings.InStep

/-- A value off the stack is used through the index as without it. -/
theorem InStep.consume (h : m.InStep) (use : IndexedSession → Int32 → Option IndexedSession)
    (use' : Session → Int32 → Session)
    (huse : ∀ v, ∃ next, use m.toIndexedSession v = some next ∧ next.InStep ∧
      next.toSession = use' m.toSession v) :
    Refines InStep toMachine (m.consume use)
      ((m.toMachine.toMemory.consume use').map m.toMachine.withMemory) := by
  rw [IndexedMachine.consume, Memory.consume]
  show Refines _ _ _ (Outcome.map _ (Outcome.ofValue _ m.stack.pop _))
  cases m.stack.pop with
  | error f => exact ⟨⟨m, some f⟩, rfl, h, rfl⟩
  | ok taken =>
    obtain ⟨v, rest⟩ := taken
    obtain ⟨next, hused, hnext, hsession⟩ := huse v
    refine ⟨⟨{ m.withStack rest with toIndexedSession := next }, none⟩, ?_, hnext, ?_⟩
    · dsimp only
      rw [hused, Option.map_some]
    · show Outcome.mk (Machine.mk ⟨next.toSession, rest⟩ m.code) none = _
      rw [hsession]
      rfl

/-- **An instruction is executed through the index as without it.** -/
theorem InStep.step (h : m.InStep) (i : Instruction) :
    Refines InStep toMachine (m.step i) (m.toMachine.step i) := by
  cases i with
  | push v => exact ⟨_, rfl, h, rfl⟩
  | store name =>
    exact h.consume (fun s v => s.bind name v) (fun s v => s.bind name v) fun v =>
      IndexedSession.InStep.exists_bind h name v
  | load name =>
    rw [IndexedMachine.step, IndexedBindings.InStep.read_eq h, Machine.step, Memory.exec]
    show Refines _ _ _ (Outcome.map _ (Outcome.ofValue _ (m.bindings.toBindings.read name) _))
    cases m.bindings.toBindings.read name with
    | error f => exact ⟨⟨m, some f⟩, rfl, h, rfl⟩
    | ok v => exact ⟨⟨m.withStack (v :: m.stack), none⟩, rfl, h, rfl⟩
  | print =>
    exact h.consume (fun s v => some (s.emit v)) Session.emit fun v =>
      ⟨m.toIndexedSession.emit v, rfl, h, rfl⟩
  | unary op => exact ⟨_, rfl, h, rfl⟩
  | binary op => exact ⟨_, rfl, h, rfl⟩

/-- **Code is executed through the index as without it,** whatever was bound before. -/
theorem execute_refines (m : IndexedMachine) :
    Refines InStep toMachine m.execute m.toMachine.execute := by
  let taken : IndexedMachine := { m.clear with code := [] }
  have hstart : taken.InStep := IndexedBindings.inStep_empty
  have hrun : Refines InStep toMachine (Outcome.run? IndexedMachine.step taken m.code)
      (taken.toMachine.stepAll m.code) :=
    Outcome.run?_refines (fun _ i h => InStep.step h i) hstart m.code
  obtain ⟨ran, hran, hinStep, hview⟩ := hrun
  refine ⟨ran.map fun left : IndexedMachine => { left with code := m.code }, ?_, hinStep, ?_⟩
  · show (Outcome.run? IndexedMachine.step taken m.code).map _ = _
    rw [hran, Option.map_some]
  · show _ = (taken.toMachine.stepAll m.code).map fun left : Machine => { left with code := m.code }
    rw [← hview]
    rfl

end IndexedMachine
end PolishCalc
