import Mathlib.Data.Set.Function
import PolishCalc.Proofs.Evaluation

/-! # Names carry no meaning

A program sees its variables through two questions only: which value a name has, and
whether two names are the same.  A renaming that keeps the program's names apart changes
neither answer, so the renamed program prints the same values, stops with the same fault,
and leaves the same bindings in the same order, under the new names.

The two runs are kept in step by one equation on the bindings, that the store of the one
is the renamed store of the other.  Binding a name keeps it for every renaming that does
not merge the name with one that is bound already (`Bindings.set_rename`), and so does
reading (`Expr.eval_rename`).  The names that a run has bound are names of the program, so
it is enough that the renaming is injective on those.
-/
namespace PolishCalc

variable {f : String → String}

/-! ## Renaming -/

/-- The fault of the renamed program.  Only a variable without a value is reported by its
name. -/
def Fault.rename (f : String → String) : Fault → Fault
  | .uninitialized name => .uninitialized (f name)
  | fault => fault

/-- The same values under other names. -/
def Bindings.rename (f : String → String) (b : Bindings) : Bindings :=
  ⟨b.entries.map fun entry => (f entry.1, entry.2)⟩

/-- The same expression over other variables. -/
def Expr.rename (f : String → String) : Expr → Expr
  | const v => const v
  | var name => var (f name)
  | unary op e => unary op (e.rename f)
  | binary op l r => binary op (l.rename f) (r.rename f)

/-- The same statement about other variables. -/
def Statement.rename (f : String → String) : Statement → Statement
  | assign name e => assign (f name) (e.rename f)
  | print e => print (e.rename f)

/-- The same program over other variables. -/
def Program.rename (f : String → String) (p : Program) : Program := p.map (Statement.rename f)

/-- The same session with its variables renamed; what was printed stays. -/
def Session.rename (f : String → String) (s : Session) : Session :=
  ⟨s.bindings.rename f, s.output⟩

/-- The outcome of the renamed program. -/
def Outcome.rename (f : String → String) (o : Outcome Session) : Outcome Session :=
  ⟨o.state.rename f, o.fault.map (Fault.rename f)⟩

/-! ## Bindings

One name at a time: it must not be merged with a name that is bound. -/

namespace Bindings

variable {b : Bindings} {name : String}

theorem get?_rename (apart : ∀ other ∈ b.names, f other = f name → other = name) :
    (b.rename f).get? (f name) = b.get? name := by
  obtain ⟨entries⟩ := b
  show (entries.map fun entry => (f entry.1, entry.2)).lookup (f name) = entries.lookup name
  induction entries with
  | nil => rfl
  | cons entry rest ih =>
    obtain ⟨other, v⟩ := entry
    obtain ⟨hother, hrest⟩ := List.forall_mem_cons.mp apart
    rw [List.map_cons, List.lookup_cons, List.lookup_cons]
    by_cases h : name = other
    · subst h
      simp
    · have hf : f name ≠ f other := fun hf => h (hother hf.symm).symm
      rw [beq_eq_false_iff_ne.mpr h, beq_eq_false_iff_ne.mpr hf]
      exact ih hrest

theorem read_rename (apart : ∀ other ∈ b.names, f other = f name → other = name) :
    (b.rename f).read (f name) = (b.read name).mapError (Fault.rename f) := by
  rw [read, read, get?_rename apart]
  cases b.get? name <;> rfl

/-- Binding a name finds the same entry in the renamed store, or none in both. -/
theorem set_rename (apart : ∀ other ∈ b.names, f other = f name → other = name) (v : Int32) :
    (b.rename f).set (f name) v = (b.set name v).rename f := by
  obtain ⟨entries⟩ := b
  show Bindings.mk (put _ _ _) = Bindings.mk ((put name v entries).map _)
  congr 1
  show put (f name) v (entries.map fun entry => (f entry.1, entry.2)) = _
  induction entries with
  | nil => rfl
  | cons entry rest ih =>
    obtain ⟨other, w⟩ := entry
    obtain ⟨hother, hrest⟩ := List.forall_mem_cons.mp apart
    rw [List.map_cons, put, put]
    by_cases h : other = name
    · rw [if_pos h, if_pos (congrArg f h), List.map_cons]
    · rw [if_neg h, if_neg fun hf => h (hother hf), List.map_cons, ih hrest]

end Bindings

/-! ## Expressions -/

/-- A fault of arithmetic mentions no name. -/
theorem UnaryOp.apply_mapError_rename (op : UnaryOp) (v : Int32) :
    (op.apply v).mapError (Fault.rename f) = op.apply v := by
  cases h : op.apply v with
  | ok w => rfl
  | error fault =>
    rw [apply_fault h]
    rfl

theorem BinaryOp.apply_mapError_rename (op : BinaryOp) (v w : Int32) :
    (op.apply v w).mapError (Fault.rename f) = op.apply v w := by
  cases h : op.apply v w with
  | ok u => rfl
  | error fault =>
    rw [apply_fault h]
    rfl

theorem mapError_bind {α β : Type} (first : Except Fault α) (next : α → Except Fault β)
    (g : Fault → Fault) :
    (first >>= next).mapError g = first.mapError g >>= fun a => (next a).mapError g := by
  cases first <;> rfl

/-- **Evaluation reads a renamed variable in a renamed store.** -/
theorem Expr.eval_rename {e : Expr} {b : Bindings}
    (apart : ∀ name ∈ e.names, ∀ other ∈ b.names, f other = f name → other = name) :
    (e.rename f).eval (b.rename f) = (e.eval b).mapError (Fault.rename f) := by
  induction e with
  | const v => rfl
  | var name => exact Bindings.read_rename (apart name (List.mem_singleton_self name))
  | unary op e ih =>
    rw [rename, eval_unary, eval_unary, ih apart, mapError_bind]
    simp only [UnaryOp.apply_mapError_rename]
  | binary op l r ihl ihr =>
    obtain ⟨hl, hr⟩ := List.forall_mem_append.mp apart
    rw [rename, eval_binary, eval_binary, ihl hl, ihr hr, mapError_bind]
    simp only [mapError_bind, BinaryOp.apply_mapError_rename]

/-! ## Runs -/

namespace Session

variable {s : Session} {names : Set String}

/-- A statement binds no names but its own. -/
theorem mem_names_perform {a : Statement} {name : String}
    (h : name ∈ (s.perform a).state.bindings.names) : name ∈ a.names ∨ name ∈ s.bindings.names := by
  cases hv : a.value.eval s.bindings with
  | error fault =>
    rw [perform_of_error hv] at h
    exact .inr h
  | ok v =>
    rw [perform_of_ok hv] at h
    cases a with
    | print e => exact .inr h
    | assign target e =>
      have hset : name ∈ (s.bindings.set target v).names := h
      rw [Bindings.names_set] at hset
      split at hset
      · exact .inr hset
      · rcases List.mem_append.mp hset with hbound | hnew
        · exact .inr hbound
        · rw [List.mem_singleton.mp hnew]
          exact .inl List.mem_cons_self

/-- A value is used for the renamed name as it is for the name. -/
theorem accept_rename {a : Statement}
    (apart : ∀ name ∈ a.names, ∀ other ∈ s.bindings.names, f other = f name → other = name)
    (v : Int32) : (s.rename f).accept (a.rename f) v = (s.accept a v).rename f := by
  cases a with
  | print e => rfl
  | assign target e =>
    exact congrArg (Session.mk · s.output)
      (Bindings.set_rename (apart target List.mem_cons_self) v)

/-- **A renamed statement** takes the renamed session to the renamed outcome. -/
theorem perform_rename {a : Statement}
    (apart : ∀ name ∈ a.names, ∀ other ∈ s.bindings.names, f other = f name → other = name) :
    (s.rename f).perform (a.rename f) = (s.perform a).rename f := by
  have hvalue : (a.rename f).value = a.value.rename f := by cases a <;> rfl
  have heval : (a.rename f).value.eval (s.rename f).bindings =
      (a.value.eval s.bindings).mapError (Fault.rename f) := by
    rw [hvalue]
    exact Expr.eval_rename fun name hn => apart name (List.mem_append_right _ hn)
  cases hv : a.value.eval s.bindings with
  | error fault =>
    rw [hv] at heval
    rw [perform_of_error hv, perform_of_error heval]
    rfl
  | ok v =>
    rw [hv] at heval
    rw [perform_of_ok hv, perform_of_ok heval, accept_rename apart]
    rfl

/-- **A renamed program** runs in step with the program, from a session all of whose names
the renaming keeps apart from the program's. -/
theorem performAll_rename {p : Program} (injective : Set.InjOn f names)
    (hp : ∀ name ∈ p.names, name ∈ names) (hs : ∀ name ∈ s.bindings.names, name ∈ names) :
    (s.rename f).performAll (p.rename f) = (s.performAll p).rename f := by
  induction p generalizing s with
  | nil => rfl
  | cons a rest ih =>
    obtain ⟨ha, hrest⟩ := List.forall_mem_append.mp hp
    have hstep : (s.rename f).perform (a.rename f) = (s.perform a).rename f :=
      perform_rename fun name hn other ho h => injective (hs other ho) (ha name hn) h
    -- What the statement binds stays among the names that are kept apart.
    have hnext : ∀ name ∈ (s.perform a).state.bindings.names, name ∈ names := fun name hn =>
      (mem_names_perform hn).elim (ha name) (hs name)
    show (s.rename f).performAll (a.rename f :: Program.rename f rest) = _
    rw [performAll_cons, performAll_cons, hstep]
    cases hperform : s.perform a with
    | mk next fault =>
      rw [hperform] at hnext
      cases fault with
      | some fault => rfl
      | none => exact ih hrest hnext

end Session

/-- **Variable names carry no meaning.**  If a renaming keeps the names of a program apart,
the renamed program prints the same values, ends with the same fault, should it have one,
under the new name, and leaves the same bindings in the same order under the new names. -/
theorem names_carry_no_meaning (p : Program) (f : String → String)
    (injective : Set.InjOn f {name | name ∈ p.names}) (s s' : Session) :
    let ran := Session.run s p
    let renamed := Session.run s' (p.rename f)
    renamed.state.output = ran.state.output ∧
    renamed.fault = ran.fault.map (Fault.rename f) ∧
    renamed.state.bindings = ran.state.bindings.rename f := by
  intro ran renamed
  have hrun : renamed = ran.rename f :=
    Session.performAll_rename (s := {}) injective (fun name hn => hn) nofun
  rw [hrun]
  exact ⟨rfl, rfl, rfl⟩

/-- Two names are exchanged, one of which is bound twice, and a third, which has no value,
turns into the start token of an assignment; the renaming would merge any further names. -/
theorem names_carry_no_meaning_of_exchange :
    let p : Program :=
      [.assign "x" (.const 1), .assign "y" (.binary .add (.var "x") (.const 2)),
        .assign "x" (.unary .negate (.var "y")), .print (.var "x"),
        .print (.binary .div (.var "z") (.const 0)), .print (.const 9)]
    let f : String → String := fun name =>
      if name = "x" then "y" else if name = "y" then "x" else "="
    let renamed := Session.run {} (p.rename f)
    Set.InjOn f {name | name ∈ p.names} ∧ renamed.state.output = [-3] ∧
      renamed.fault = some (.uninitialized "=") ∧
      renamed.state.bindings = ⟨[("y", -3), ("x", 3)]⟩ := by
  intro p f renamed
  have apart : ∀ name ∈ p.names, ∀ other ∈ p.names, f name = f other → name = other := by decide
  have injective : Set.InjOn f {name | name ∈ p.names} :=
    fun name hn other ho => apart name hn other ho
  obtain ⟨houtput, hfault, hbindings⟩ := names_carry_no_meaning p f injective {} {}
  exact ⟨injective, houtput.trans (by decide), hfault.trans (by decide),
    hbindings.trans (by decide)⟩

end PolishCalc
