import PolishCalc.Proofs.InstructionCodec
import PolishCalc.Proofs.InstructionEffect
import PolishCalc.Proofs.OrderedStore
import PolishCalc.Proofs.Renaming

/-! # Reports determine what they report

A report escapes nothing: a name stands in its line as it is, and it may hold colons and digits,
or read `EMPTY`.  What keeps a line of bindings readable is its blank.  A name without blanks
carries its colon up to the first blank of the line, and what follows that blank is the numeral
(`Bindings.entryLine_inj`).  As neither holds a line feed, the text falls into its lines in one
way only, and the report is that of one list of entries (`Bindings.report_inj`).

A stack is reported as bindings would be whose names are the depths (`Stack.byDepth`), so the
same argument applies to it.  The line of an empty stack has no blank and is no line of a value.

Names without blanks are all that ever gets into a store.  A run binds names of its program only,
and names that were read are words.  A machine gets its names from its code and from single
instructions, and no call brings in another (`Machine.NamesBlankFree.answer`).
-/
namespace PolishCalc

open Text (BlankFree isBlank isLineFeed)

/-! ## Bindings -/

namespace Bindings

variable {b b' : Bindings} {entry entry' : String × Int32}
variable {entries entries' : List (String × Int32)}

/-- The line of an entry, cut at the blank behind the colon. -/
theorem toList_entryLine (entry : String × Int32) :
    (entryLine entry).toList =
      (entry.1 ++ ":").toList ++ ' ' :: (Numeral.text entry.2).toList := by
  simp [entryLine, String.toList_append]

/-- **The line of an entry shows its name and its value,** if there is no blank in the name. -/
theorem entryLine_inj (h : BlankFree entry.1) (h' : BlankFree entry'.1)
    (hline : entryLine entry = entryLine entry') : entry = entry' := by
  have hcut := congrArg String.toList hline
  rw [toList_entryLine, toList_entryLine] at hcut
  obtain ⟨hname, hvalue⟩ := Text.word_append_inj (h.append (by decide)) (h'.append (by decide))
    (Text.endsWord_space _) (Text.endsWord_space _) hcut
  exact Prod.ext ((String.append_left_inj ":").mp hname)
    (Numeral.text_injective (String.toList_inj.mp (List.cons.inj hvalue).2))

/-- Entries are known by their lines. -/
theorem map_entryLine_inj (h : ∀ entry ∈ entries, BlankFree entry.1)
    (h' : ∀ entry ∈ entries', BlankFree entry.1)
    (hlines : entries.map entryLine = entries'.map entryLine) : entries = entries' := by
  induction entries generalizing entries' with
  | nil => exact (List.map_eq_nil_iff.mp hlines.symm).symm
  | cons entry rest ih =>
    cases entries' with
    | nil => exact absurd hlines (List.cons_ne_nil _ _)
    | cons entry' rest' =>
      obtain ⟨hentry, hrest⟩ := List.forall_mem_cons.mp h
      obtain ⟨hentry', hrest'⟩ := List.forall_mem_cons.mp h'
      obtain ⟨hline, hlines⟩ := List.cons.inj hlines
      rw [entryLine_inj hentry hentry' hline, ih hrest hrest' hlines]

theorem isLineFeed_of_mem_entryLine (h : BlankFree entry.1) :
    ∀ c ∈ (entryLine entry).toList, isLineFeed c = false := by
  intro c hc
  rw [toList_entryLine, List.mem_append, List.mem_cons] at hc
  rcases hc with hname | rfl | hvalue
  · exact Text.isLineFeed_of_isBlank (h.append (by decide) c hname)
  · rfl
  · exact (Numeral.isWord_text entry.2).isLineFeed c hvalue

theorem blankFree_of_mem_entries (h : ∀ name ∈ b.names, BlankFree name) :
    ∀ entry ∈ b.entries, BlankFree entry.1 :=
  fun _ hentry => h _ (List.mem_map_of_mem hentry)

/-- The lines of a report hold no line feeds. -/
theorem isLineFeed_of_mem_lines (h : ∀ name ∈ b.names, BlankFree name) :
    ∀ line ∈ b.entries.map entryLine, ∀ c ∈ line.toList, isLineFeed c = false := by
  intro line hline
  obtain ⟨entry, hentry, rfl⟩ := List.mem_map.mp hline
  exact isLineFeed_of_mem_entryLine (blankFree_of_mem_entries h entry hentry)

/-- **Bindings whose names have no blanks are known by their report.** -/
theorem report_inj (h : ∀ name ∈ b.names, BlankFree name)
    (h' : ∀ name ∈ b'.names, BlankFree name) :
    b.report = b'.report ↔ b.entries = b'.entries := by
  constructor
  · intro hreport
    exact map_entryLine_inj (blankFree_of_mem_entries h) (blankFree_of_mem_entries h')
      (Text.joinLines_inj (isLineFeed_of_mem_lines h) (isLineFeed_of_mem_lines h') hreport)
  · intro hentries
    rw [report, report, hentries]

end Bindings

/-! ## Stacks -/

theorem Numeral.blankFree_naturalText (n : Nat) : BlankFree (naturalText n) := by
  intro c hc
  rw [naturalText, String.toList_ofList] at hc
  exact Text.isBlank_of_isDigit (isDigit_of_mem c hc)

namespace Stack

variable {s s' : Stack}

/-- The values of a stack, each under its depth in place of a name. -/
def byDepth (s : Stack) : Bindings :=
  ⟨s.zipIdx.map fun entry => (Numeral.naturalText entry.2, entry.1)⟩

theorem blankFree_of_mem_names_byDepth : ∀ name ∈ s.byDepth.names, BlankFree name := by
  intro name hn
  obtain ⟨_, hentry, rfl⟩ := List.mem_map.mp hn
  obtain ⟨entry, -, rfl⟩ := List.mem_map.mp hentry
  exact Numeral.blankFree_naturalText entry.2

/-- The values in the order of their depths are the stack. -/
theorem values_byDepth (s : Stack) : s.byDepth.entries.map (·.2) = s := by
  rw [byDepth, List.map_map]
  exact List.zipIdx_map_fst 0 s

/-- A stack that holds values is reported as they are under their depths. -/
theorem report_of_ne_nil (h : s ≠ []) : s.report = s.byDepth.report := by
  rw [report, if_neg (by simpa using h), Bindings.report, byDepth, List.map_map]
  rfl

/-- No report of values is that of the empty stack: its lines have blanks. -/
theorem report_byDepth_ne_empty : s.byDepth.report ≠ report [] := by
  intro hreport
  have hlines : s.byDepth.entries.map Bindings.entryLine = ["EMPTY"] :=
    Text.joinLines_inj (Bindings.isLineFeed_of_mem_lines blankFree_of_mem_names_byDepth)
      (List.forall_mem_singleton.mpr (Text.IsWord.isLineFeed (by decide))) hreport
  obtain ⟨entry, -, hline⟩ := List.map_eq_singleton_iff.mp hlines
  have hblank : ' ' ∈ (Bindings.entryLine entry).toList := by
    simp [Bindings.toList_entryLine]
  rw [hline] at hblank
  exact absurd hblank (by decide)

/-- **A stack is known by its report.** -/
theorem report_inj : s.report = s'.report ↔ s = s' := by
  refine ⟨fun hreport => ?_, congrArg report⟩
  by_cases hs : s = [] <;> by_cases hs' : s' = []
  · rw [hs, hs']
  · rw [hs, report_of_ne_nil hs'] at hreport
    exact absurd hreport.symm report_byDepth_ne_empty
  · rw [hs', report_of_ne_nil hs] at hreport
    exact absurd hreport report_byDepth_ne_empty
  · rw [report_of_ne_nil hs, report_of_ne_nil hs', Bindings.report_inj
      blankFree_of_mem_names_byDepth blankFree_of_mem_names_byDepth] at hreport
    rw [← values_byDepth s, hreport, values_byDepth s']

end Stack

/-! ## Names that are bound -/

variable {Q : String → Prop}

/-- What holds of the names of a program and of those bound before, holds of all that are bound
by a run. -/
theorem Session.forall_mem_names_performAll {s : Session} {p : Program}
    (hp : ∀ name ∈ p.names, Q name) (hs : ∀ name ∈ s.bindings.names, Q name) :
    ∀ name ∈ (s.performAll p).state.bindings.names, Q name := by
  refine Outcome.run_keeps perform (P := fun s => ∀ name ∈ s.bindings.names, Q name) ?_ hs
  intro a ha t ht name hn
  rcases mem_names_perform hn with hown | hbound
  · exact hp name (List.mem_flatMap.mpr ⟨a, ha, hown⟩)
  · exact ht name hbound

namespace Memory

variable {m : Memory}

/-- An instruction binds no name but its own. -/
theorem mem_names_exec {i : Instruction} {name : String}
    (h : name ∈ (m.exec i).state.bindings.names) : name ∈ i.name? ∨ name ∈ m.bindings.names := by
  cases hfault : (m.exec i).fault with
  | some f =>
    rw [exec_state_of_fault hfault] at h
    exact .inr h
  | none =>
    have hexec : m.exec i = ⟨(m.exec i).state, none⟩ := congrArg (Outcome.mk _) hfault
    rw [← Bindings.isSome_get?_iff, (exec_ok hexec).2, Bindings.isSome_get?_iff] at h
    rcases h with hbound | rfl
    · exact .inr hbound
    · exact .inl rfl

/-- What holds of the names of code and of those bound before, holds of all that are bound when
the code has been executed. -/
theorem forall_mem_names_execAll {c : Code} (hc : ∀ name ∈ c.names, Q name)
    (hm : ∀ name ∈ m.bindings.names, Q name) :
    ∀ name ∈ (m.execAll c).state.bindings.names, Q name := by
  refine Outcome.run_keeps exec (P := fun m => ∀ name ∈ m.bindings.names, Q name) ?_ hm
  intro i hi t ht name hn
  rcases mem_names_exec hn with hown | hbound
  · exact hc name (Code.mem_names.mpr ⟨i, hi, hown⟩)
  · exact ht name hbound

end Memory

namespace Machine

/-- No name that the machine knows, from its code or by binding it, has a blank. -/
structure NamesBlankFree (m : Machine) : Prop where
  code : ∀ name ∈ m.code.names, BlankFree name
  bindings : ∀ name ∈ m.bindings.names, BlankFree name

variable {m : Machine} {calls : List Call}

theorem NamesBlankFree.initial : NamesBlankFree {} := ⟨nofun, nofun⟩

/-- **A call brings in no name with a blank,** except for that of an instruction to step. -/
theorem NamesBlankFree.answer (h : m.NamesBlankFree) {call : Call}
    (hcall : ∀ i, call = .step i → ∀ name ∈ i.name?, BlankFree name) :
    (m.answer call).state.NamesBlankFree := by
  cases call with
  | assemble ls =>
    rcases m.assemble_cases ls with ⟨c, hc, hstate⟩ | ⟨f, -, hstate⟩
    · rw [Machine.answer, hstate]
      refine ⟨?_, h.bindings⟩
      show ∀ name ∈ (m.code ++ c).names, BlankFree name
      rw [Code.names_append, List.forall_mem_append]
      exact ⟨h.code, fun name hn => (Code.isWord_of_ofLines hc name hn).2⟩
    · rw [Machine.answer, hstate]
      exact h
  | step i =>
    refine ⟨h.code, fun name hn => ?_⟩
    rcases Memory.mem_names_exec hn with hown | hbound
    · exact hcall i rfl name hown
    · exact h.bindings name hbound
  | execute =>
    -- The memory that the code starts from has no names.
    have hempty : ∀ name ∈ ({} : Memory).bindings.names, BlankFree name :=
      fun _ hn => absurd hn List.not_mem_nil
    rw [Machine.answer, Machine.execute_eq_execAll]
    exact ⟨h.code, Memory.forall_mem_names_execAll h.code hempty⟩

/-- **No history of calls brings in a name with a blank,** on the same condition. -/
theorem NamesBlankFree.after (h : m.NamesBlankFree)
    (hcalls : ∀ i, .step i ∈ calls → ∀ name ∈ i.name?, BlankFree name) :
    (m.after calls).NamesBlankFree := by
  induction calls generalizing m with
  | nil => exact h
  | cons call rest ih =>
    have hnext : (m.answer call).state.NamesBlankFree :=
      h.answer fun i hi => hcalls i (hi ▸ List.mem_cons_self)
    exact ih hnext fun i hi => hcalls i (List.mem_cons_of_mem call hi)

end Machine

/-- The names that a program binds, when it was read from a source, have no blanks. -/
theorem Session.blankFree_of_mem_names_run {source : String} {p : Program}
    (hread : Program.ofSource source = .ok p) (s : Session) :
    ∀ name ∈ (Session.run s p).state.bindings.names, BlankFree name :=
  forall_mem_names_performAll (fun name hn => (Program.isWord_of_ofSource hread name hn).2) nofun

/-- **Reports determine the state.**  Bindings whose names have no blanks have the same report
if and only if they have the same entries in the same order, and stacks if and only if they are
the same.  The names that running a program binds have no blanks, if the program was read from
a source, and nor have those that are bound by a machine, whatever calls it has answered, if no
instruction with such a name was stepped.  So the report of the one is that of the other exactly
if the bindings are. -/
theorem reports_determine_the_state :
    (∀ b b' : Bindings, (∀ name ∈ b.names, BlankFree name) → (∀ name ∈ b'.names, BlankFree name) →
      (b.report = b'.report ↔ b.entries = b'.entries)) ∧
    (∀ s s' : Stack, s.report = s'.report ↔ s = s') ∧
    (∀ source p s, Program.ofSource source = .ok p →
      ∀ name ∈ (Session.run s p).state.bindings.names, BlankFree name) ∧
    (∀ calls, (∀ i, .step i ∈ calls → ∀ name ∈ i.name?, BlankFree name) →
      ∀ name ∈ (Machine.after {} calls).bindings.names, BlankFree name) ∧
    (∀ source p s calls, Program.ofSource source = .ok p →
      (∀ i, .step i ∈ calls → ∀ name ∈ i.name?, BlankFree name) →
        let ran := (Session.run s p).state
        let m := Machine.after {} calls
        (ran.bindings.report = m.bindings.report ↔ ran.bindings.entries = m.bindings.entries)) := by
  refine ⟨fun b b' => Bindings.report_inj, fun s s' => Stack.report_inj,
    fun source p s hread => Session.blankFree_of_mem_names_run hread s,
    fun calls hcalls => (Machine.NamesBlankFree.initial.after hcalls).bindings, ?_⟩
  intro source p s calls hread hcalls ran m
  exact Bindings.report_inj (Session.blankFree_of_mem_names_run hread s)
    (Machine.NamesBlankFree.initial.after hcalls).bindings

/-- Names that end in a colon, are one, are a depth or the mark of the empty stack; a stack; and
a name that was read from a source on the one side, and on the other stored by assembled code and
by a single instruction. -/
theorem reports_determine_the_state_of_lookalikes :
    let b : Bindings := ⟨[("x:", 1), (":", -2), ("EMPTY", 0), ("0", 7)]⟩
    let calls : List Call := [.assemble ["PUSH 1", "STORE x:", "PUSH 2", "STORE x"], .execute,
      .step (.push 3), .step (.store "x:")]
    let p : Program := [.assign "x:" (.binary .add (.const 1) (.const 2)), .assign "x" (.const 2)]
    b.report = "x:: 1\n:: -2\nEMPTY: 0\n0: 7\n" ∧
      (∀ b' : Bindings, (∀ name ∈ b'.names, BlankFree name) →
        (b.report = b'.report ↔ b.entries = b'.entries)) ∧
      (∀ s : Stack, s.report = "0: 7\n1: -5\n" ↔ s = [7, -5]) ∧
      Program.ofSource "= x: + 1 2 = x 2" = .ok p ∧
      (∀ name ∈ (Session.run {} p).state.bindings.names, BlankFree name) ∧
      (∀ name ∈ (Machine.after {} calls).bindings.names, BlankFree name) ∧
      (Session.run {} p).state.bindings.entries = (Machine.after {} calls).bindings.entries := by
  intro b calls p
  have hread : Program.ofSource "= x: + 1 2 = x 2" = .ok p := by decide +kernel
  have hvalues : Stack.report [7, -5] = "0: 7\n1: -5\n" := by decide
  have hcalls : ∀ i, .step i ∈ calls → ∀ name ∈ i.name?, BlankFree name := by
    intro i hi
    simp only [calls, List.mem_cons, reduceCtorEq, Call.step.injEq, List.not_mem_nil, false_or,
      or_false] at hi
    rcases hi with rfl | rfl <;> decide
  obtain ⟨hbindings, hstack, hrun, hafter, hboth⟩ := reports_determine_the_state
  exact ⟨by decide, fun b' => hbindings b b' (by decide), fun s => hvalues ▸ hstack s [7, -5],
    hread, hrun _ p {} hread, hafter calls hcalls,
    (hboth _ p {} calls hread hcalls).mp (by decide +kernel)⟩

/-- A name with blanks can look like two lines of a report. -/
example : (Bindings.mk [("a: 1\nb", 2)]).report = (Bindings.mk [("a", 1), ("b", 2)]).report := by
  decide

end PolishCalc
