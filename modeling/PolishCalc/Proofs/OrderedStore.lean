import Mathlib.Data.List.Induction
import PolishCalc.Proofs.IndexedRuns

/-! # The store is an ordered map

What a store holds is determined by the calls that bound its names: the names in the order of
their first calls, and with each name the value of its last call.  For the entries alone this
follows call by call, since a call puts a new name last and leaves the places of all others as
they are (`Bindings.names_set`), and changes the value of its own name only
(`Bindings.get?_set`).

A store that finds names through an index comes to the same, because every call keeps its index in
step with the entries (`IndexedBindings.InStep.exists_set`).  The same is true of whatever else
changes a store, a program that is run or code that is executed: none of it ever meets a slot
without an entry (`IndexedSession.run_refines`, `IndexedMachine.execute_refines`).
-/
namespace PolishCalc

variable {name : String}

/-! ## Calls -/

/-- The value of the last of the calls that bind `name`, if there is one. -/
def lastCall? (calls : List (String × Int32)) (name : String) : Option Int32 :=
  calls.reverse.lookup name

theorem lastCall?_append_singleton (calls : List (String × Int32)) (call : String × Int32)
    (name : String) :
    lastCall? (calls ++ [call]) name =
      if name = call.1 then some call.2 else lastCall? calls name := by
  rw [lastCall?, List.reverse_append, List.reverse_singleton, List.singleton_append,
    List.lookup_cons]
  by_cases h : name = call.1
  · simp [h]
  · rw [beq_eq_false_iff_ne.mpr h, if_neg h, lastCall?]

/-- A name without a call is one that the calls do not bind. -/
theorem lastCall?_eq_none_iff {calls : List (String × Int32)} :
    lastCall? calls name = none ↔ name ∉ calls.map (·.1) := by
  rw [lastCall?, List.lookup_eq_none_iff, List.mem_map]
  constructor
  · rintro h ⟨call, hcall, rfl⟩
    exact bne_iff_ne.mp (h call (List.mem_reverse.mpr hcall)) rfl
  · intro h call hcall
    exact bne_iff_ne.mpr fun heq => h ⟨call, List.mem_reverse.mp hcall, heq.symm⟩

/-- The names of the calls with one more: it comes last, unless it is among them. -/
theorem eraseDups_append_singleton (names : List String) (name : String) :
    (names ++ [name]).eraseDups =
      if name ∈ names then names.eraseDups else names.eraseDups ++ [name] := by
  rw [List.eraseDups_append]
  by_cases h : name ∈ names <;> simp [h, List.removeAll, List.eraseDups_cons]

namespace Bindings

variable {b : Bindings}

/-- Bind names to values, one after the other. -/
def setAll (b : Bindings) (calls : List (String × Int32)) : Bindings :=
  calls.foldl (fun b call => b.set call.1 call.2) b

theorem setAll_append_singleton (calls : List (String × Int32)) (call : String × Int32) :
    b.setAll (calls ++ [call]) = (b.setAll calls).set call.1 call.2 := by
  rw [setAll, List.foldl_append]
  rfl

/-- **The names are those of the calls, in the order of their first calls.** -/
theorem names_setAll (calls : List (String × Int32)) :
    (setAll {} calls).names = (calls.map (·.1)).eraseDups := by
  induction calls using List.reverseRecOn with
  | nil => rfl
  | append_singleton calls call ih =>
    rw [setAll_append_singleton, names_set, ih, List.map_append, List.map_singleton,
      eraseDups_append_singleton]
    simp only [List.mem_eraseDups]

/-- No name has two entries. -/
theorem nodup_names_setAll (calls : List (String × Int32)) : (setAll {} calls).names.Nodup := by
  induction calls using List.reverseRecOn with
  | nil => exact List.nodup_nil
  | append_singleton calls call ih =>
    rw [setAll_append_singleton, names_set]
    by_cases h : call.1 ∈ (setAll {} calls).names
    · rwa [if_pos h]
    · rw [if_neg h, List.nodup_append_comm]
      exact List.nodup_cons.mpr ⟨h, ih⟩

/-- **The value of a name is that of its last call,** or the one that it had before them all. -/
theorem get?_setAll (b : Bindings) (calls : List (String × Int32)) (name : String) :
    (b.setAll calls).get? name = (lastCall? calls name).or (b.get? name) := by
  induction calls using List.reverseRecOn with
  | nil => rfl
  | append_singleton calls call ih =>
    rw [setAll_append_singleton, get?_set, ih, lastCall?_append_singleton]
    by_cases h : name = call.1
    · rw [if_pos h, if_pos h, Option.some_or]
    · rw [if_neg h, if_neg h]

end Bindings

/-- **Calls keep the index in step,** whatever names they bind. -/
theorem IndexedBindings.InStep.exists_setAll {b : IndexedBindings} (h : b.InStep)
    (calls : List (String × Int32)) :
    ∃ last, b.setAll calls = some last ∧ last.InStep ∧
      last.toBindings = b.toBindings.setAll calls := by
  induction calls generalizing b with
  | nil => exact ⟨b, rfl, h, rfl⟩
  | cons call rest ih =>
    obtain ⟨next, hset, hnext, hbindings⟩ := h.exists_set call.1 call.2
    obtain ⟨last, hrest, hlast, hall⟩ := ih hnext
    refine ⟨last, ?_, hlast, ?_⟩
    · rw [setAll_cons, hset, Option.bind_some, hrest]
    · rw [hall, hbindings]
      rfl

/-- **The store is an ordered map.**  After any calls that bind names, each name that was bound
has one entry, in the order of the first calls, with the value of the name's last call.  This is
what is read, and a name that was not bound has no value.  A store with an index comes to the
same entries: its index maps the names to their own slots and nothing else, so a slot always
has an entry, and what is read through it is the same.  So it is after every run of a program and
every execution of code: on a store with an index these have a result, with the same fault, the
same entries and the same output, and the index is in step when they end. -/
theorem store_is_an_ordered_map (calls : List (String × Int32)) :
    let b := Bindings.setAll {} calls
    let names := (calls.map (·.1)).eraseDups
    b.names = names ∧ names.Nodup ∧
    (∀ entry ∈ b.entries, lastCall? calls entry.1 = some entry.2) ∧
    (∀ name, b.get? name = lastCall? calls name) ∧
    (∀ name, b.get? name = none ↔ name ∉ calls.map (·.1)) ∧
    (∀ name, b.contains name ↔ (b.get? name).isSome) ∧
    b.size = names.length ∧ (b.isEmpty ↔ names.length = 0) ∧
    (∀ (s : IndexedSession) (p : Program), ∃ ran, s.run p = some ran ∧
      ran.state.bindings.InStep ∧ ran.map IndexedSession.toSession = s.toSession.run p) ∧
    (∀ m : IndexedMachine, ∃ ran, m.execute = some ran ∧
      ran.state.bindings.InStep ∧ ran.map IndexedMachine.toMachine = m.toMachine.execute) ∧
    ∃ store, IndexedBindings.setAll {} calls = some store ∧ store.toBindings = b ∧
      (∀ name slot, store.slot? name = some slot ↔ b.names[slot]? = some name) ∧
      (∀ name, store.get? name = some (b.get? name)) ∧
      (∀ name, store.contains name = b.contains name) ∧
      store.size = b.size ∧ store.isEmpty = b.isEmpty := by
  intro b names
  have hnames : b.names = names := Bindings.names_setAll calls
  have hdistinct : b.names.Nodup := Bindings.nodup_names_setAll calls
  have hget : ∀ name, b.get? name = lastCall? calls name := by
    intro name
    exact (Bindings.get?_setAll {} calls name).trans Option.or_none
  have hlength : b.size = names.length := by rw [← hnames, Bindings.names, List.length_map]; rfl
  refine ⟨hnames, hnames ▸ hdistinct, ?_, hget, ?_, fun _ => Bindings.contains_iff, hlength, ?_,
    IndexedSession.run_refines, IndexedMachine.execute_refines, ?_⟩
  · rintro ⟨name, v⟩ hentry
    rw [← hget, Bindings.get?_of_mem hdistinct hentry]
  · intro name
    rw [hget, lastCall?_eq_none_iff]
  · rw [← hlength, Bindings.isEmpty, List.isEmpty_iff_length_eq_zero]
    rfl
  · obtain ⟨store, hstore, hstep, hbindings⟩ := IndexedBindings.inStep_empty.exists_setAll calls
    have hsame : store.toBindings = b := hbindings
    refine ⟨store, hstore, hsame, hsame ▸ hstep, ?_, ?_, ?_, ?_⟩
    · intro name
      rw [hstep.get?_eq, hsame]
    · intro name
      rw [hstep.contains_eq, hsame]
    · rw [← hsame]
      rfl
    · rw [← hsame]
      rfl

/-- A name that is bound again keeps its place. -/
example :
    (IndexedBindings.setAll {} [("x", 30), ("y", 20), ("z", 10), ("x", -1)]).map (·.entries) =
      some [("x", -1), ("y", 20), ("z", 10)] := by decide

end PolishCalc
