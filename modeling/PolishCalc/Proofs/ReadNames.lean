import PolishCalc.Proofs.OrderedStore
import PolishCalc.Proofs.UnassignedReads

/-! # Only the names that are read matter

A program asks its store for the names in its expressions and for nothing else.  So two stores
that agree on these names give every expression the same value or fault (`Expr.eval_congr`), and
a statement does the same in both: it binds its name to the same value, or prints the same value,
or fails in the same way.  Binding the same name to the same value keeps the agreement, whether
the name is read later or not.

A run is therefore the same list of statements with their values from either store
(`Session.accepted_congr`), and a session after a run is the session before it and that list
(`Session.state_performAll`).  The rest is about calls that bind names, in any store: after them a
name has the value of its last call, and without a call the value that it had.
-/
namespace PolishCalc

/-! ## Stores that agree -/

namespace Bindings

variable {names names' : List String} {b b' : Bindings}

/-- Two stores give the same answers about `names`. -/
def AgreeOn (names : List String) (b b' : Bindings) : Prop :=
  ∀ name ∈ names, b.get? name = b'.get? name

instance (names : List String) (b b' : Bindings) : Decidable (AgreeOn names b b') :=
  inferInstanceAs (Decidable (∀ name ∈ names, _))

theorem AgreeOn.set (h : AgreeOn names b b') (name : String) (value : Int32) :
    AgreeOn names (b.set name value) (b'.set name value) := by
  intro other hother
  rw [get?_set, get?_set, h other hother]

theorem agreeOn_append :
    AgreeOn (names ++ names') b b' ↔ AgreeOn names b b' ∧ AgreeOn names' b b' :=
  List.forall_mem_append

end Bindings

open Bindings (AgreeOn)

/-- **The value of an expression depends on the names that it reads, and on no others.** -/
theorem Expr.eval_congr {e : Expr} {b b' : Bindings} (agree : AgreeOn e.names b b') :
    e.eval b = e.eval b' := by
  induction e with
  | const v => rfl
  | var name =>
    have hname : b.get? name = b'.get? name := agree name (List.mem_singleton_self name)
    rw [eval, eval, Bindings.read, Bindings.read, hname]
  | unary op e ih => rw [eval_unary, eval_unary, ih agree]
  | binary op l r ihl ihr =>
    obtain ⟨hl, hr⟩ := Bindings.agreeOn_append.mp agree
    rw [eval_binary, eval_binary, ihl hl, ihr hr]

/-- The names that the statements of a program read. -/
def Program.reads (p : Program) : List String := p.flatMap fun a => a.value.names

namespace Session

variable {s s' : Session} {a : Statement} {v : Int32} {f : Fault}

/-! ## A run as statements with their values -/

/-- The statements that are performed, with the values that they use: all those before the first
that fails. -/
def accepted (s : Session) : Program → List (Statement × Int32)
  | [] => []
  | a :: rest =>
    match a.value.eval s.bindings with
    | .ok v => (a, v) :: (s.accept a v).accepted rest
    | .error _ => []

/-- The statements that are performed. -/
def performed (s : Session) (p : Program) : Program := (s.accepted p).map (·.1)

/-- What the statements bind. -/
def calls (done : List (Statement × Int32)) : List (String × Int32) :=
  done.filterMap fun (a, v) => a.target?.map fun name => (name, v)

/-- What the statements print. -/
def printed (done : List (Statement × Int32)) : List Int32 :=
  done.filterMap fun (a, v) => if a.target?.isSome then none else some v

theorem accepted_cons_of_ok (h : a.value.eval s.bindings = .ok v) (rest : Program) :
    s.accepted (a :: rest) = (a, v) :: (s.accept a v).accepted rest := by
  rw [accepted, h]

theorem accepted_cons_of_error (h : a.value.eval s.bindings = .error f) (rest : Program) :
    s.accepted (a :: rest) = [] := by
  rw [accepted, h]

/-- The names that are bound are those that the statements assign. -/
theorem map_calls (done : List (Statement × Int32)) :
    (calls done).map (·.1) = Program.assigned (done.map (·.1)) := by
  rw [calls, Program.assigned, List.map_filterMap, List.filterMap_map]
  refine congrArg (List.filterMap · done) (funext fun entry => ?_)
  rw [Option.map_map]
  exact Option.map_id'

/-- **A run adds to a session what its statements bind and print.** -/
theorem state_performAll (s : Session) (p : Program) :
    (s.performAll p).state =
      ⟨s.bindings.setAll (calls (s.accepted p)), s.output ++ printed (s.accepted p)⟩ := by
  induction p generalizing s with
  | nil =>
    show s = ⟨s.bindings, s.output ++ []⟩
    rw [List.append_nil]
  | cons a rest ih =>
    rw [performAll_cons]
    rcases heval : a.value.eval s.bindings with f | v
    · rw [perform_of_error heval, Outcome.andThen_some, accepted_cons_of_error heval]
      show s = ⟨s.bindings, s.output ++ []⟩
      rw [List.append_nil]
    · rw [perform_of_ok heval, Outcome.andThen_none, accepted_cons_of_ok heval, ih]
      rcases a with ⟨name, e⟩ | e
      · rfl
      · show Session.mk _ (s.output ++ [v] ++ _) = Session.mk _ (s.output ++ ([v] ++ _))
        rw [List.append_assoc]
        rfl

/-- Statements keep the agreement of two stores. -/
theorem agreeOn_accept {names : List String} (agree : AgreeOn names s.bindings s'.bindings)
    (a : Statement) (v : Int32) :
    AgreeOn names (s.accept a v).bindings (s'.accept a v).bindings := by
  rcases a with ⟨name, e⟩ | e
  · exact agree.set name v
  · exact agree

/-- **A run is the same from two stores that agree on what is read.** -/
theorem accepted_congr {p : Program} (agree : AgreeOn p.reads s.bindings s'.bindings) :
    s'.accepted p = s.accepted p ∧ (s'.performAll p).fault = (s.performAll p).fault := by
  induction p generalizing s s' with
  | nil => exact ⟨rfl, rfl⟩
  | cons a rest ih =>
    obtain ⟨hvalue, hrest⟩ := Bindings.agreeOn_append.mp agree
    have hsame : a.value.eval s'.bindings = a.value.eval s.bindings :=
      (Expr.eval_congr hvalue).symm
    rw [performAll_cons, performAll_cons]
    rcases heval : a.value.eval s.bindings with f | v
    · rw [accepted_cons_of_error heval, accepted_cons_of_error (hsame.trans heval),
        perform_of_error heval, perform_of_error (hsame.trans heval)]
      exact ⟨rfl, rfl⟩
    · obtain ⟨hdone, hfault⟩ := ih (agreeOn_accept hrest a v)
      rw [accepted_cons_of_ok heval, accepted_cons_of_ok (hsame.trans heval), hdone,
        perform_of_ok heval, perform_of_ok (hsame.trans heval)]
      exact ⟨rfl, hfault⟩

/-- After a run a name has the value that the run bound last, or else the one that it had. -/
theorem get?_performAll (s : Session) (p : Program) (name : String) :
    (s.performAll p).state.bindings.get? name =
      (lastCall? (calls (s.accepted p)) name).or (s.bindings.get? name) := by
  rw [state_performAll, Bindings.get?_setAll]

/-- A name has a last call just if a statement that was performed assigns it. -/
theorem lastCall?_calls_eq_none_iff {p : Program} {name : String} :
    lastCall? (calls (s.accepted p)) name = none ↔ name ∉ Program.assigned (s.performed p) := by
  rw [lastCall?_eq_none_iff, map_calls, performed]

end Session

/-- **Only the names that are read matter.**  From two stores that agree on the names in its
expressions a program performs the same statements, ends with the same fault, if any, and
prints the same values.  The stores that it leaves agree on these names again, and on those that
were assigned; every other name has in each store the value that it had there before, or none. -/
theorem only_names_read_matter {p : Program} {s s' : Session}
    (agree : AgreeOn p.reads s.bindings s'.bindings) :
    let ran := s.performAll p
    let ran' := s'.performAll p
    let bound := Program.assigned (s.performed p)
    ran'.fault = ran.fault ∧ s'.performed p = s.performed p ∧
    (∃ values, ran.state.output = s.output ++ values ∧ ran'.state.output = s'.output ++ values) ∧
    AgreeOn (p.reads ++ bound) ran.state.bindings ran'.state.bindings ∧
    ∀ name, name ∉ bound →
      ran.state.bindings.get? name = s.bindings.get? name ∧
        ran'.state.bindings.get? name = s'.bindings.get? name := by
  intro ran ran' bound
  obtain ⟨hdone, hfault⟩ := Session.accepted_congr agree
  have hperformed : s'.performed p = s.performed p := by
    rw [Session.performed, Session.performed, hdone]
  refine ⟨hfault, hperformed, ?_, ?_, ?_⟩
  · refine ⟨Session.printed (s.accepted p), ?_, ?_⟩
    · rw [Session.state_performAll]
    · rw [Session.state_performAll, hdone]
  · refine Bindings.agreeOn_append.mpr ⟨?_, ?_⟩
    · intro name hname
      rw [Session.get?_performAll, Session.get?_performAll, hdone, agree name hname]
    · intro name hname
      rw [Session.get?_performAll, Session.get?_performAll, hdone]
      rcases hlast : lastCall? (Session.calls (s.accepted p)) name with _ | v
      · exact absurd hname (Session.lastCall?_calls_eq_none_iff.mp hlast)
      · rw [Option.some_or, Option.some_or]
  · intro name hname
    have hnone := Session.lastCall?_calls_eq_none_iff.mpr hname
    rw [Session.get?_performAll, Session.get?_performAll, hdone, hnone, Option.none_or,
      Option.none_or]
    exact ⟨rfl, rfl⟩

/-- Two stores with their names in different orders, one of which has a name more: a program
binds a name that it reads later, and one that it does not read, until it divides by zero. -/
theorem only_names_read_matter_in_two_orders :
    let p : Program :=
      [.print (.var "x"), .assign "z" (.binary .add (.var "x") (.const 1)), .print (.var "z"),
        .assign "extra" (.const 3), .assign "x" (.binary .div (.var "z") (.var "y")),
        .assign "late" (.const 4)]
    let s : Session := ⟨⟨[("x", 5), ("y", 0)]⟩, [8]⟩
    let s' : Session := ⟨⟨[("late", 7), ("extra", 9), ("y", 0), ("x", 5)]⟩, []⟩
    AgreeOn p.reads s.bindings s'.bindings ∧
      (s'.performAll p).fault = some .divideByZero ∧
      (s'.performAll p).state.output = [5, 6] ∧
      (s'.performAll p).state.bindings.get? "extra" = some 3 ∧
      (s'.performAll p).state.bindings.get? "late" = some 7 ∧
      (s.performAll p).state.bindings.get? "late" = none := by
  intro p s s'
  have agree : AgreeOn p.reads s.bindings s'.bindings := by decide
  obtain ⟨hfault, -, ⟨values, houtput, houtput'⟩, hagree, hkept⟩ := only_names_read_matter agree
  have hrun : [8] ++ values = [8] ++ [5, 6] := houtput.symm
  have hvalues : values = [5, 6] := List.append_cancel_left hrun
  have hlate := hkept "late" (by decide)
  refine ⟨agree, hfault.trans rfl, houtput'.trans hvalues, ?_, hlate.2.trans rfl,
    hlate.1.trans rfl⟩
  exact (hagree "extra" (by decide)).symm.trans rfl

end PolishCalc
