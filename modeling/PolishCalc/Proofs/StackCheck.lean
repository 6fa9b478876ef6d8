import PolishCalc.Proofs.FirstFault
import PolishCalc.Proofs.InstructionEffect
import PolishCalc.Proofs.LoweredRuns

/-! # A check that decides two faults

Whether code takes too many operands off the stack, and whether it loads a name that was
never stored, can be told without executing it.  The depth of the stack before an
instruction does not depend on the values: it is the sum of what the instructions before
it change.  Neither do the names that are bound: they are those stored before.

A scan of the code finds the first index that is bad in either way.  As long as no index
is bad, an execution can only stop in arithmetic (`Code.run_of_good`), because the scan
tracks the memory (`Code.Tracks`).  At the first bad index an execution that got so far
fails for the reason that the scan gives.  So the scan is exact: code that it accepts
never meets the two faults, and code that it refuses always fails.
-/
namespace PolishCalc

/-- The fault is one of arithmetic. -/
def Fault.OfArithmetic (f : Fault) : Prop := f = .divideByZero ∨ f = .negativeSquareRoot

namespace Code

/-! ## The scan -/

/-- The depth counter of the scan behind code; it starts at zero. -/
def depth (code : Code) : Int := code.foldl (fun d i => d + i.change) 0

/-- The depth before index `k` is below what the instruction there needs. -/
def Underflows (code : Code) (k : Nat) : Prop := ∃ i ∈ code[k]?, depth (code.take k) < i.needs

/-- The instruction at index `k` loads `name`, and none before it stores `name`. -/
def LoadsUnbound (code : Code) (k : Nat) (name : String) : Prop :=
  code[k]? = some (.load name) ∧ .store name ∉ code.take k

/-- The scan objects to index `k`. -/
def Bad (code : Code) (k : Nat) : Prop := code.Underflows k ∨ ∃ name, code.LoadsUnbound k name

/-- The scan objects to index `k` and to none before. -/
def FirstBad (code : Code) (k : Nat) : Prop := code.Bad k ∧ ∀ j < k, ¬ code.Bad j

instance (code : Code) (k : Nat) : Decidable (code.Underflows k) :=
  inferInstanceAs (Decidable (∃ i ∈ code[k]?, depth (code.take k) < i.needs))

instance (code : Code) (k : Nat) (name : String) : Decidable (code.LoadsUnbound k name) :=
  inferInstanceAs (Decidable (_ ∧ _))

instance (code : Code) (k : Nat) : Decidable (code.Bad k) :=
  decidable_of_iff
      (code.Underflows k ∨ ∃ name ∈ code[k]?.bind Instruction.name?, code.LoadsUnbound k name) <|
    or_congr Iff.rfl <| exists_congr fun name =>
      ⟨And.right, fun h => ⟨by rw [h.1]; rfl, h⟩⟩

instance (code : Code) (k : Nat) : Decidable (code.FirstBad k) :=
  inferInstanceAs (Decidable (_ ∧ _))

theorem foldl_change (code : Code) (d : Int) :
    code.foldl (fun d i => d + i.change) d = d + depth code := by
  induction code generalizing d with
  | nil => simp [depth]
  | cons i rest ih =>
    rw [depth, List.foldl_cons, List.foldl_cons, ih, ih (0 + i.change)]
    omega

/-- The counter goes on from where it stands. -/
theorem depth_append (front back : Code) : depth (front ++ back) = depth front + depth back := by
  rw [depth, List.foldl_append, foldl_change]
  rfl

theorem depth_append_singleton (code : Code) (i : Instruction) :
    depth (code ++ [i]) = depth code + i.change := by
  simp [depth]

/-! ## Where an execution stops -/

/-- Executing code from an empty memory gets to index `k` and fails there. -/
def FailsAt (code : Code) (k : Nat) (f : Fault) : Prop :=
  ∃ i ∈ code[k]?, ∃ m, Memory.execAll {} (code.take k) = ⟨m, none⟩ ∧ (m.exec i).fault = some f

/-- An execution that fails at an index has the fault of that index. -/
theorem FailsAt.execAll_fault {code : Code} {k : Nat} {f : Fault} (h : code.FailsAt k f) :
    (Memory.execAll {} code).fault = some f := by
  obtain ⟨i, here, m, reached, fails⟩ := h
  have hstops : Outcome.StopsAt Memory.exec {} code k i m f := ⟨here, reached, fails⟩
  rw [Memory.execAll, hstops.run_eq, fails]

/-! ## The scan tracks the memory -/

/-- What the scan knows of the memory that code leaves. -/
structure Tracks (code : Code) (m : Memory) : Prop where
  length : (m.stack.length : Int) = code.depth
  bound : ∀ name, (m.bindings.get? name).isSome ↔ .store name ∈ code

theorem Tracks.nil : Tracks [] {} := ⟨rfl, fun name => by simp [Bindings.get?]⟩

variable {code : Code} {m m' : Memory} {i : Instruction} {f : Fault}

/-- One more instruction that succeeds is tracked. -/
theorem Tracks.append (h : code.Tracks m) (hexec : m.exec i = ⟨m', none⟩) :
    Tracks (code ++ [i]) m' := by
  obtain ⟨hlength, hbound⟩ := Memory.exec_ok hexec
  refine ⟨?_, fun name => ?_⟩
  · rw [hlength, h.length, depth_append_singleton]
  · rw [hbound, h.bound, List.mem_append, List.mem_singleton, eq_comm]

/-- An instruction that the scan does not object to fails in arithmetic only. -/
theorem Tracks.fault_of_good {k : Nat} (h : Tracks (code.take k) m) (hi : code[k]? = some i)
    (good : ¬ code.Bad k) (hfault : (m.exec i).fault = some f) : f.OfArithmetic := by
  have enough : i.needs ≤ m.stack.length := by
    apply Nat.le_of_not_lt
    intro short
    refine good (.inl ⟨i, hi, ?_⟩)
    rw [← h.length]
    exact Int.ofNat_lt.mpr short
  rcases Memory.exec_fault enough hfault with hf | hf | ⟨name, rfl, -, hnone⟩
  · exact .inl hf
  · exact .inr hf
  · refine absurd (.inr ⟨name, hi, fun hstored => ?_⟩) good
    have hsome := (h.bound name).mpr hstored
    rw [hnone] at hsome
    cases hsome

/-- An instruction that needs more operands than the scan counts finds too few. -/
theorem Tracks.fault_of_underflow (h : code.Tracks m) (hdepth : code.depth < i.needs) :
    (m.exec i).fault = some .emptyStack := by
  have short : m.stack.length < i.needs := Int.ofNat_lt.mp (h.length ▸ hdepth)
  rw [Memory.exec_of_short short]

/-- A name that no instruction stored has no value. -/
theorem Tracks.fault_of_unbound {name : String} (h : code.Tracks m)
    (hstore : .store name ∉ code) :
    (m.exec (.load name)).fault = some (.uninitialized name) := by
  have hnone : m.bindings.get? name = none := by
    cases hget : m.bindings.get? name with
    | none => rfl
    | some v => exact absurd ((h.bound name).mp (by rw [hget]; rfl)) hstore
  rw [Memory.exec, Bindings.read, hnone]
  rfl

/-- **As long as no index is bad, only arithmetic can fail,** and if it does not, the
scan tracks the memory. -/
theorem run_of_good {k : Nat} (hk : k ≤ code.length) (good : ∀ j < k, ¬ code.Bad j) :
    (∃ m, Memory.execAll {} (code.take k) = ⟨m, none⟩ ∧ Tracks (code.take k) m) ∨
      ∃ j < k, ∃ f, f.OfArithmetic ∧ code.FailsAt j f := by
  -- Once an index before `k` has failed in arithmetic, nothing is left to show of `k`.
  induction k with
  | zero => exact .inl ⟨{}, rfl, Tracks.nil⟩
  | succ k ih =>
    have hi : code[k]? = some code[k] := List.getElem?_eq_getElem hk
    rcases ih (Nat.le_of_lt hk) fun j hj => good j (Nat.lt_succ_of_lt hj) with
      ⟨m, hrun, htracks⟩ | ⟨j, hj, hfails⟩
    · cases hexec : m.exec code[k] with
      | mk m' fault =>
        cases fault with
        | none =>
          refine .inl ⟨m', ?_, ?_⟩
          · rw [List.take_succ_eq_append_getElem hk, Memory.execAll_append, hrun,
              Outcome.andThen_none, Memory.execAll_singleton, hexec]
          · rw [List.take_succ_eq_append_getElem hk]
            exact htracks.append hexec
        | some f =>
          have hfault : (m.exec code[k]).fault = some f := by rw [hexec]
          exact .inr ⟨k, Nat.lt_succ_self k, f,
            htracks.fault_of_good hi (good k (Nat.lt_succ_self k)) hfault,
            code[k], hi, m, hrun, hfault⟩
    · exact .inr ⟨j, Nat.lt_succ_of_lt hj, hfails⟩

/-- A load never underflows: the depth that the scan counts is that of a stack. -/
theorem Tracks.not_underflows_of_load {k : Nat} {name : String} (h : Tracks (code.take k) m)
    (hi : code[k]? = some (.load name)) : ¬ code.Underflows k := by
  rintro ⟨i, hi', hdepth⟩
  have hload : i = .load name := Option.some.inj (hi'.symm.trans hi)
  rw [hload, ← h.length] at hdepth
  exact absurd (Int.ofNat_lt.mp hdepth) (Nat.not_lt_zero _)

/-- **An execution that gets to a bad index fails there,** for the reason that the scan
gives. -/
theorem failsAt_of_bad {k : Nat} (hbad : code.Bad k)
    (hrun : Memory.execAll {} (code.take k) = ⟨m, none⟩) (htracks : Tracks (code.take k) m) :
    ∃ f, code.FailsAt k f ∧ (code.Underflows k → f = .emptyStack) ∧
      ∀ name, code.LoadsUnbound k name → f = .uninitialized name := by
  rcases hbad with hunder | ⟨name, hi, hstore⟩
  · obtain ⟨i, hi, hdepth⟩ := hunder
    refine ⟨.emptyStack, ⟨i, hi, m, hrun, htracks.fault_of_underflow hdepth⟩, fun _ => rfl, ?_⟩
    intro name hload
    exact absurd ⟨i, hi, hdepth⟩ (htracks.not_underflows_of_load hload.1)
  · refine ⟨.uninitialized name, ⟨_, hi, m, hrun, htracks.fault_of_unbound hstore⟩, ?_, ?_⟩
    · intro hunder
      exact absurd hunder (htracks.not_underflows_of_load hi)
    · rintro other ⟨hother, -⟩
      rw [hi] at hother
      cases hother
      rfl

theorem Bad.lt_length {k : Nat} (h : code.Bad k) : k < code.length := by
  rcases h with ⟨i, hi, -⟩ | ⟨name, hi, -⟩ <;> exact (List.getElem?_eq_some_iff.mp hi).1

end Code

/-- **The scan decides whether code can meet the two faults.**  If no index is bad, an
execution ends without a fault and with as many operands as the scan counts, or with a
fault of arithmetic.  If index `k` is the first bad one, every execution fails: in
arithmetic before `k`, or at `k`, of an empty stack if the scan found too little depth
there, and of the name's missing value if it found a name that is not stored. -/
theorem scan_decides_faults (code : Code) :
    let executed := Machine.execute { code := code }
    ((∀ k < code.length, ¬ code.Bad k) →
      executed.fault = none ∧ (executed.state.stack.length : Int) = code.depth ∨
      executed.fault = some .divideByZero ∨ executed.fault = some .negativeSquareRoot) ∧
    (∀ k, code.FirstBad k →
      ∃ j f, executed.fault = some f ∧ code.FailsAt j f ∧
        (j < k ∧ (f = .divideByZero ∨ f = .negativeSquareRoot) ∨
          j = k ∧ (code.Underflows k → f = .emptyStack) ∧
            ∀ name, code.LoadsUnbound k name → f = .uninitialized name)) := by
  intro executed
  have hfault : executed.fault = (Memory.execAll {} code).fault := Machine.execute_fault _
  refine ⟨?_, ?_⟩
  · intro good
    rcases Code.run_of_good (Nat.le_refl _) good with ⟨m, hrun, htracks⟩ | ⟨j, -, f, hf, hfails⟩
    · rw [List.take_length] at hrun htracks
      have hstack : executed.state.stack = m.stack := by
        rw [Machine.execute_toMemory, hrun]
      exact .inl ⟨by rw [hfault, hrun], by rw [hstack, htracks.length]⟩
    · rw [hfault, hfails.execAll_fault]
      exact .inr (hf.imp (congrArg some) (congrArg some))
  · rintro k ⟨hbad, good⟩
    rcases Code.run_of_good (Nat.le_of_lt hbad.lt_length) good with
      ⟨m, hrun, htracks⟩ | ⟨j, hj, f, hf, hfails⟩
    · obtain ⟨f, hfails, hreason⟩ := Code.failsAt_of_bad hbad hrun htracks
      exact ⟨k, f, hfault.trans hfails.execAll_fault, hfails, .inr ⟨rfl, hreason⟩⟩
    · exact ⟨j, f, hfault.trans hfails.execAll_fault, hfails, .inl ⟨hj, hf⟩⟩

/-- Code that the scan accepts, code that fails where the scan objects, and code that
divides by zero before it gets there. -/
theorem scan_decides_faults_of_examples :
    let accepted : Code := [.push 2, .store "x", .load "x", .push 3]
    let refused : Code := [.push 1, .binary .div]
    let divided : Code := [.push 1, .push 0, .binary .div, .load "x"]
    (∀ k < accepted.length, ¬ accepted.Bad k) ∧ accepted.depth = 2 ∧
      (Machine.execute { code := accepted }).fault = none ∧
      refused.FirstBad 1 ∧ (Machine.execute { code := refused }).fault = some .emptyStack ∧
      divided.FirstBad 3 ∧ ∃ j < 3, divided.FailsAt j .divideByZero := by
  intro accepted refused divided
  have good : ∀ k < accepted.length, ¬ accepted.Bad k := by decide
  have first : refused.FirstBad 1 := by decide
  have later : divided.FirstBad 3 := by decide
  refine ⟨good, by decide, ?_, first, ?_, later, ?_⟩
  · rcases (scan_decides_faults accepted).1 good with ⟨hnone, -⟩ | hdivide | hroot
    · exact hnone
    · exact absurd hdivide (by decide)
    · exact absurd hroot (by decide)
  · obtain ⟨j, f, hfault, -, ⟨-, harithmetic⟩ | ⟨-, hunder, -⟩⟩ :=
      (scan_decides_faults refused).2 1 first
    · rcases harithmetic with rfl | rfl <;> exact absurd hfault (by decide)
    · rw [hfault, hunder (by decide)]
  · obtain ⟨j, f, hfault, hfails, ⟨hj, -⟩ | ⟨-, -, hunbound⟩⟩ :=
      (scan_decides_faults divided).2 3 later
    · have hf : some .divideByZero = some f := Eq.trans (by decide) hfault
      exact ⟨j, hj, Option.some.inj hf ▸ hfails⟩
    · rw [hunbound "x" (by decide)] at hfault
      exact absurd hfault (by decide)

end PolishCalc
