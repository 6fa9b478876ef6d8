import PolishCalc.Proofs.CompilerCorrectness

/-! # What a machine keeps of its history

A machine is used by three calls, in any order, and each of them can fail: lines are
assembled, a single instruction is stepped, the code is executed.  All that such a
history leaves behind for later executions is code, and the code is that of the
assemble calls that succeeded, one after the other (`Machine.code_after`): a failed
call adds nothing, not even the lines before the bad one, and stepping and executing
leave the code alone.

Executing starts from an empty memory, so it answers as a machine would that was made
a moment ago and holds this code.  For compiled programs this means that they can be
handed over one at a time, with anything else in between: the machine runs them as one
program.
-/
namespace PolishCalc

open Text (IsWord)

/-! ## Lines that are instructions -/

/-- The line is an instruction or blank. -/
def Instruction.IsReadable (line : String) : Prop := ∃ i, readLine line = .ok i

/-- The instruction on a line, if there is one. -/
def Instruction.onLine? (line : String) : Option Instruction :=
  match readLine line with
  | .ok i => i
  | .error _ => none

namespace Code

/-- The instructions on the lines that hold one, in order. -/
def onLines (ls : List String) : Code := ls.filterMap Instruction.onLine?

/-- `f` is the fault of the first line that is neither an instruction nor blank. -/
def FirstBadLine (ls : List String) (f : Fault) : Prop :=
  ∃ front line back, ls = front ++ line :: back ∧
    (∀ l ∈ front, Instruction.IsReadable l) ∧ Instruction.readLine line = .error f

/-- **Lines that can all be read are read as their instructions.** -/
theorem ofLines_eq_ok_iff {ls : List String} {c : Code} :
    ofLines ls = .ok c ↔ (∀ line ∈ ls, Instruction.IsReadable line) ∧ c = onLines ls := by
  induction ls generalizing c with
  | nil => simp [onLines, eq_comm]
  | cons line rest ih =>
    have hcons {i} (hline : Instruction.readLine line = .ok i) :
        onLines (line :: rest) = i.toList ++ onLines rest := by
      have hon : Instruction.onLine? line = i := by rw [Instruction.onLine?, hline]
      cases i <;> simp [onLines, hon]
    rw [ofLines_cons_eq_ok_iff, List.forall_mem_cons]
    constructor
    · rintro ⟨i, c', hline, hrest, rfl⟩
      obtain ⟨readable, rfl⟩ := ih.mp hrest
      exact ⟨⟨⟨i, hline⟩, readable⟩, (hcons hline).symm⟩
    · rintro ⟨⟨⟨i, hline⟩, readable⟩, rfl⟩
      exact ⟨i, onLines rest, hline, ih.mpr ⟨readable, rfl⟩, hcons hline⟩

/-- **The first bad line is the one that is reported.** -/
theorem ofLines_eq_error_iff {ls : List String} {f : Fault} :
    ofLines ls = .error f ↔ FirstBadLine ls f := by
  induction ls with
  | nil =>
    refine ⟨nofun, ?_⟩
    rintro ⟨front, line, back, h, -⟩
    exact absurd h (by simp)
  | cons line rest ih =>
    rw [ofLines_cons_eq_error_iff, ih]
    constructor
    · rintro (hline | ⟨readable, front, bad, back, rfl, hfront, hbad⟩)
      · exact ⟨[], line, rest, rfl, nofun, hline⟩
      · exact ⟨line :: front, bad, back, rfl, List.forall_mem_cons.mpr ⟨readable, hfront⟩, hbad⟩
    · rintro ⟨front, bad, back, h, hfront, hbad⟩
      cases front with
      | nil =>
        rw [List.nil_append, List.cons.injEq] at h
        exact .inl (h.1 ▸ hbad)
      | cons first front =>
        rw [List.cons_append, List.cons.injEq] at h
        obtain ⟨rfl, rfl⟩ := h
        obtain ⟨readable, hfront⟩ := List.forall_mem_cons.mp hfront
        exact .inr ⟨readable, front, bad, back, rfl, hfront, hbad⟩

/-- The lines of code whose names are words hold that code. -/
theorem onLines_lines {c : Code} (h : ∀ name ∈ c.names, IsWord name) : onLines c.lines = c :=
  (ofLines_eq_ok_iff.mp (ofLines_lines h)).2.symm

end Code

/-! ## Histories -/

/-- A call to a machine. -/
inductive Call where
  | assemble (lines : List String)
  | step (i : Instruction)
  | execute
deriving DecidableEq, Repr

namespace Machine

/-- Answer a call. -/
def answer (m : Machine) : Call → Outcome Machine
  | .assemble ls => m.assemble ls
  | .step i => m.step i
  | .execute => m.execute

/-- The machine that calls leave behind, those that fail included. -/
def after (m : Machine) (calls : List Call) : Machine :=
  calls.foldl (fun m call => (m.answer call).state) m

/-- The calls, each with the fault that it was answered with. -/
def history (m : Machine) : List Call → List (Call × Option Fault)
  | [] => []
  | call :: rest => (call, (m.answer call).fault) :: history (m.answer call).state rest

/-- The lines of the assemble calls that succeeded, call by call. -/
def accepted (m : Machine) (calls : List Call) : List (List String) :=
  (m.history calls).filterMap fun
    | (.assemble ls, none) => some ls
    | _ => none

@[simp] theorem after_cons (m : Machine) (call : Call) (rest : List Call) :
    m.after (call :: rest) = (m.answer call).state.after rest := rfl

theorem assemble_fault_eq_some_iff {m : Machine} {ls : List String} {f : Fault} :
    (m.assemble ls).fault = some f ↔ Code.FirstBadLine ls f := by
  rw [← Code.ofLines_eq_error_iff]
  rcases m.assemble_cases ls with ⟨c, hc, h⟩ | ⟨g, hg, h⟩
  · rw [h, hc]
    exact ⟨nofun, nofun⟩
  · rw [h, hg, Option.some.injEq, Except.error.injEq]

/-- A call that succeeds in assembling lines adds their instructions. -/
theorem assemble_of_none {m : Machine} {ls : List String} (h : (m.assemble ls).fault = none) :
    (m.assemble ls).state = { m with code := m.code ++ Code.onLines ls } := by
  rcases m.assemble_cases ls with ⟨c, hc, hstate⟩ | ⟨f, -, hf⟩
  · rw [hstate, (Code.ofLines_eq_ok_iff.mp hc).2]
  · rw [hf] at h
    cases h

/-- A call that fails to assemble lines changes nothing. -/
theorem assemble_of_some {m : Machine} {ls : List String} {f : Fault}
    (h : (m.assemble ls).fault = some f) : (m.assemble ls).state = m := by
  rcases m.assemble_cases ls with ⟨c, -, hc⟩ | ⟨g, -, hg⟩
  · rw [hc] at h
    cases h
  · rw [hg]

/-- What one call adds to the code: the instructions on the lines of an assemble call
that succeeds. -/
theorem answer_code (m : Machine) (call : Call) (rest : List Call) :
    (m.answer call).state.code ++
        ((m.answer call).state.accepted rest).flatMap Code.onLines =
      m.code ++ (m.accepted (call :: rest)).flatMap Code.onLines := by
  -- Only assembling touches the code; whether it did is what the history says of it.
  cases call with
  | assemble ls =>
    cases hfault : (m.assemble ls).fault with
    | none =>
      have haccepted : m.accepted (.assemble ls :: rest) =
          ls :: (m.assemble ls).state.accepted rest := by
        simp [accepted, history, answer, hfault]
      rw [haccepted, answer, List.flatMap_cons, ← List.append_assoc, assemble_of_none hfault]
    | some f =>
      have haccepted : m.accepted (.assemble ls :: rest) =
          (m.assemble ls).state.accepted rest := by
        simp [accepted, history, answer, hfault]
      rw [haccepted, answer, assemble_of_some hfault]
  | step i => rfl
  | execute => rfl

/-- **The code is that of the assemble calls that succeeded.** -/
theorem code_after (m : Machine) (calls : List Call) :
    (m.after calls).code = m.code ++ (m.accepted calls).flatMap Code.onLines := by
  induction calls generalizing m with
  | nil => exact (List.append_nil _).symm
  | cons call rest ih => rw [after_cons, ih, answer_code]

/-- **Executing does not depend on what was stepped or executed before.** -/
theorem execute_eq (m : Machine) : m.execute = Machine.execute { code := m.code } := by
  rw [execute_eq_execAll, execute_eq_execAll]
  rfl

end Machine

/-- Programs that are handed over one at a time leave the code of them all. -/
theorem Program.onLines_compile {ps : List Program}
    (words : ∀ p ∈ ps, ∀ name ∈ p.names, IsWord name) :
    (ps.map compile).flatMap Code.onLines = lower ps.flatten := by
  induction ps with
  | nil => rfl
  | cons p rest ih =>
    obtain ⟨hp, hrest⟩ := List.forall_mem_cons.mp words
    have hlines : Code.onLines p.compile = p.lower :=
      Code.onLines_lines fun name hn => hp name (mem_names_lower.mp hn)
    rw [List.map_cons, List.flatMap_cons, ih hrest, hlines, List.flatten_cons, lower_append]

/-- **The law of a machine's history.**  After any calls to a new machine, its code is
that of the assemble calls that succeeded, in their order.  An assemble call fails with
the fault of its first bad line and then changes nothing; if it succeeds it changes the
code only.  Stepping and executing keep the code, and executing answers, and leaves
everything, as on a new machine that holds this code.  So programs whose names are words
always assemble, and if theirs are the calls that succeeded, executing runs all of them
as one program. -/
theorem machine_history (calls : List Call) :
    let m := Machine.after {} calls
    let accepted := Machine.accepted {} calls
    m.code = accepted.flatMap Code.onLines ∧
    (∀ ls f, (m.assemble ls).fault = some f ↔ Code.FirstBadLine ls f) ∧
    (∀ ls f, (m.assemble ls).fault = some f → (m.assemble ls).state = m) ∧
    (∀ ls, (m.assemble ls).fault = none → (m.assemble ls).state.toMemory = m.toMemory) ∧
    (∀ i, (m.step i).state.code = m.code) ∧
    m.execute.state.code = m.code ∧
    m.execute = Machine.execute { code := accepted.flatMap Code.onLines } ∧
    (∀ p : Program, (∀ name ∈ p.names, IsWord name) → (m.assemble p.compile).fault = none) ∧
    (∀ ps : List Program, (∀ p ∈ ps, ∀ name ∈ p.names, IsWord name) →
      accepted = ps.map Program.compile →
        let executed := m.execute
        let ran := Session.run {} ps.flatten
        executed.fault = ran.fault ∧ executed.state.output = ran.state.output ∧
          executed.state.bindings = ran.state.bindings) := by
  intro m accepted
  have hcode : m.code = accepted.flatMap Code.onLines := by
    show (Machine.after {} calls).code = _
    rw [Machine.code_after]
    rfl
  have hexecute : m.execute = Machine.execute { code := accepted.flatMap Code.onLines } := by
    rw [m.execute_eq, hcode]
  refine ⟨hcode, fun ls f => Machine.assemble_fault_eq_some_iff,
    fun ls f => Machine.assemble_of_some, ?_, m.step_code, m.execute_code, hexecute, ?_, ?_⟩
  · intro ls h
    rw [Machine.assemble_of_none h]
  · intro p words
    rcases m.assemble_cases p.compile with ⟨c, -, h⟩ | ⟨f, hf, -⟩
    · rw [h]
    · have hlines := Code.ofLines_lines fun name hn => words name (Program.mem_names_lower.mp hn)
      exact absurd (hf.symm.trans hlines) nofun
  · intro ps words haccepted executed ran
    -- The stack that a fault leaves behind is the machine's own, and is not compared.
    obtain ⟨left, hlower, -⟩ := Program.execute_lower ps.flatten
    have hexecuted : executed = ran.map fun s => ⟨⟨s, left⟩, Program.lower ps.flatten⟩ := by
      show m.execute = _
      rw [hexecute, haccepted, Program.onLines_compile words]
      exact hlower
    rw [hexecuted]
    exact ⟨rfl, rfl, rfl⟩

/-- Two programs handed over among a step that fails, an execution, and an assemble call
whose second line is bad: the second program reads what the first one binds. -/
theorem machine_history_of_two_programs :
    let bind : Program := [.assign "x" (.const 6)]
    let use : Program := [.print (.binary .mul (.var "x") (.const 7))]
    let calls : List Call := [.assemble bind.compile, .step (.push 5), .step .print, .execute,
      .step (.binary .add), .assemble ["PUSH 9", "PUSH nine", "PRINT"], .assemble use.compile,
      .step (.push 1)]
    let m := Machine.after {} calls
    m.stack = [1] ∧ m.execute.fault = none ∧ m.execute.state.output = [42] ∧
      m.execute.state.bindings = ⟨[("x", 6)]⟩ := by
  intro bind use calls m
  have words : ∀ p ∈ [bind, use], ∀ name ∈ p.names, IsWord name := by decide
  obtain ⟨-, -, -, -, -, -, -, -, hrun⟩ := machine_history calls
  obtain ⟨hfault, houtput, hbindings⟩ := hrun [bind, use] words (by decide +kernel)
  exact ⟨by decide +kernel, hfault.trans (by decide), houtput.trans (by decide),
    hbindings.trans (by decide)⟩

end PolishCalc
