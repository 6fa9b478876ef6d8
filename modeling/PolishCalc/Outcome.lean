import PolishCalc.Fault

/-! # Outcomes of stateful steps

A step that fails may already have changed the state: a failed addition has lost
its operands.  So a step answers with the state it leaves *and* the fault, if
any, and not with one or the other.  `Outcome.run` repeats a step over a list up
to the first fault; the interpreter runs statements this way and the stack
machine instructions, and the equations at the end are what both are reasoned
about with.
-/
namespace PolishCalc

universe u v w

/-- The state a step leaves, and the fault it stopped with, if any. -/
structure Outcome (σ : Type u) where
  /-- What the step leaves behind, whether or not it failed. -/
  state : σ
  /-- Why the step failed; `none` when it did not. -/
  fault : Option Fault := none
deriving DecidableEq, Repr

namespace Outcome

variable {σ : Type u} {τ : Type v} {α : Type w}

/-- The same outcome seen on another state. -/
def map (f : σ → τ) (o : Outcome σ) : Outcome τ := ⟨f o.state, o.fault⟩

@[simp] theorem map_state (f : σ → τ) (o : Outcome σ) : (o.map f).state = f o.state := rfl

@[simp] theorem map_fault (f : σ → τ) (o : Outcome σ) : (o.map f).fault = o.fault := rfl

/-- Go on from the state that a step leaves, unless it failed. -/
@[inline] def andThen (o : Outcome σ) (next : σ → Outcome σ) : Outcome σ :=
  match o with
  | ⟨s, none⟩ => next s
  | ⟨s, some f⟩ => ⟨s, some f⟩

@[simp] theorem andThen_none (s : σ) (next : σ → Outcome σ) :
    andThen ⟨s, none⟩ next = next s := rfl

@[simp] theorem andThen_some (s : σ) (f : Fault) (next : σ → Outcome σ) :
    andThen ⟨s, some f⟩ next = ⟨s, some f⟩ := rfl

theorem andThen_assoc (o : Outcome σ) (next last : σ → Outcome σ) :
    (o.andThen next).andThen last = o.andThen fun s => (next s).andThen last := by
  obtain ⟨s, _ | f⟩ := o <;> rfl

/-- Two steps in turn succeed when the first does, and the second from where it leads. -/
theorem andThen_eq_none_iff {o : Outcome σ} {next : σ → Outcome σ} {t : σ} :
    o.andThen next = ⟨t, none⟩ ↔ ∃ s, o = ⟨s, none⟩ ∧ next s = ⟨t, none⟩ := by
  obtain ⟨s, _ | f⟩ := o
  · rw [andThen_none]
    exact ⟨fun h => ⟨s, rfl, h⟩, fun ⟨_, hs, h⟩ => by cases hs; exact h⟩
  · rw [andThen_some]
    exact ⟨nofun, fun ⟨_, hs, _⟩ => nomatch hs⟩

/-- The outcome of computing a value first, and of a step that uses it: a fault
of the computation leaves the state as it was. -/
def ofValue (s : σ) (value : Except Fault α) (next : α → σ) : Outcome σ :=
  match value with
  | .ok a => ⟨next a, none⟩
  | .error f => ⟨s, some f⟩

@[simp] theorem ofValue_ok (s : σ) (a : α) (next : α → σ) :
    ofValue s (.ok a) next = ⟨next a, none⟩ := rfl

@[simp] theorem ofValue_error (s : σ) (f : Fault) (next : α → σ) :
    ofValue s (.error f) next = ⟨s, some f⟩ := rfl

/-! ## Runs up to the first fault -/

variable (step : σ → α → Outcome σ)

/-- Take the steps of a list in order and stop at the first that fails.  The
faulty step's own state is kept; the steps after it are not taken. -/
def run : σ → List α → Outcome σ
  | s, [] => ⟨s, none⟩
  | s, a :: rest => (step s a).andThen fun next => run next rest

@[simp] theorem run_nil (s : σ) : run step s [] = ⟨s, none⟩ := rfl

theorem run_cons (s : σ) (a : α) (rest : List α) :
    run step s (a :: rest) = (step s a).andThen fun next => run step next rest := rfl

/-- **A run over two lists in turn** is the run over the first, and from where
it ends the run over the second. -/
theorem run_append (s : σ) (front back : List α) :
    run step s (front ++ back) = (run step s front).andThen fun next => run step next back := by
  induction front generalizing s with
  | nil => rfl
  | cons a rest ih =>
    rw [List.cons_append, run_cons, run_cons, andThen_assoc]
    simp only [ih]

/-- **A run commutes with a view of the states** if every step does. -/
theorem run_map {seen : τ → α → Outcome τ} (view : σ → τ)
    (hstep : ∀ s a, seen (view s) a = (step s a).map view) (s : σ) (as : List α) :
    run seen (view s) as = (run step s as).map view := by
  induction as generalizing s with
  | nil => rfl
  | cons a rest ih =>
    rw [run_cons, run_cons, hstep]
    obtain ⟨next, _ | f⟩ := step s a
    · exact ih next
    · rfl

/-- **What every step keeps holds where a run ends,** with a fault or without. -/
theorem run_keeps {P : σ → Prop} {s : σ} {as : List α}
    (hstep : ∀ a ∈ as, ∀ t, P t → P (step t a).state) (h : P s) : P (run step s as).state := by
  induction as generalizing s with
  | nil => exact h
  | cons a rest ih =>
    obtain ⟨ha, hrest⟩ := List.forall_mem_cons.mp hstep
    have hnext : P (step s a).state := ha s h
    rw [run_cons]
    cases ho : step s a with
    | mk t fault =>
      rw [ho] at hnext
      cases fault with
      | some f => exact hnext
      | none => exact ih hrest hnext

end Outcome
end PolishCalc
