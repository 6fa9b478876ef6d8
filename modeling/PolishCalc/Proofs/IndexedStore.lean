import Mathlib.Data.List.Nodup
import PolishCalc.IndexedBindings

/-! # An index in step with its store

A store that finds names through an index answers as one without as long as the index is in step
with the entries: it maps every name to the slot whose entry has that name, and no name else
(`IndexedBindings.InStep`).  Then two slots cannot have the same name, since the index gives one
slot for it.  So the slot of a name is the first place at which the name occurs, which is where
a walk along the entries would stop, and there is always an entry to read or to overwrite.
Binding a name keeps the index in step: an entry that is overwritten keeps its name, and one that
is added has its slot added.
-/
namespace PolishCalc

variable {name : String} {value : Int32} {slot : Nat}

/-! ## Where a walk along the entries leads -/

namespace Bindings

variable {b : Bindings}

/-- An entry is what is read, if no other has its name. -/
theorem get?_of_mem (distinct : b.names.Nodup) (h : (name, value) ∈ b.entries) :
    b.get? name = some value := by
  obtain ⟨front, back, hsplit⟩ := List.append_of_mem h
  rw [names, hsplit, List.map_append] at distinct
  rw [get?, List.lookup_eq_some_iff]
  refine ⟨front, back, hsplit, fun entry hentry => bne_iff_ne.mpr ?_⟩
  exact Ne.symm ((List.nodup_append.mp distinct).2.2 _ (List.mem_map_of_mem hentry) name (by simp))

/-- A name has a value if it is bound. -/
theorem isSome_get?_iff : (b.get? name).isSome ↔ name ∈ b.names := by
  rw [get?, List.lookup_isSome_iff, names, List.mem_map]
  exact exists_congr fun entry => and_congr_right fun _ => beq_iff_eq.trans eq_comm

theorem contains_iff : b.contains name ↔ (b.get? name).isSome := by
  rw [contains, List.contains_iff_mem, isSome_get?_iff]

/-- Where a walk along the entries overwrites: at the first place of the name. -/
theorem put_eq_set {entries : List (String × Int32)} (h : name ∈ entries.map (·.1)) :
    put name value entries = entries.set ((entries.map (·.1)).idxOf name) (name, value) := by
  induction entries with
  | nil => exact absurd h List.not_mem_nil
  | cons entry rest ih =>
    obtain ⟨n, v⟩ := entry
    rw [put, List.map_cons]
    by_cases hn : n = name
    · rw [if_pos hn, hn, List.idxOf_cons_self, List.set_cons_zero]
    · have hrest : name ∈ rest.map (·.1) := by
        rcases List.mem_cons.mp h with heq | hrest
        · exact absurd heq.symm hn
        · exact hrest
      rw [if_neg hn, ih hrest, List.idxOf_cons_ne _ hn, List.set_cons_succ]

/-- A name that is not found gets a new entry. -/
theorem put_eq_append {entries : List (String × Int32)} (h : name ∉ entries.map (·.1)) :
    put name value entries = entries ++ [(name, value)] := by
  induction entries with
  | nil => rfl
  | cons entry rest ih =>
    obtain ⟨n, v⟩ := entry
    obtain ⟨hn, hrest⟩ := not_or.mp (mt List.mem_cons.mpr h)
    rw [put, if_neg (Ne.symm hn), ih hrest, List.cons_append]

end Bindings

namespace IndexedBindings

variable {b : IndexedBindings}

/-! ## The index -/

/-- The index maps the names of the entries to their own slots, and nothing else. -/
def InStep (b : IndexedBindings) : Prop :=
  ∀ name slot, b.slot? name = some slot ↔ b.toBindings.names[slot]? = some name

theorem inStep_empty : InStep {} := by
  intro name slot
  simp [slot?, toBindings, Bindings.names]

namespace InStep

/-- The slot of a name is the first place at which it occurs. -/
theorem idxOf_eq (h : b.InStep) (hslot : b.slot? name = some slot) :
    b.toBindings.names.idxOf name = slot := by
  have hmem : name ∈ b.toBindings.names := List.mem_of_getElem? ((h name slot).mp hslot)
  have hfirst : b.slot? name = some (b.toBindings.names.idxOf name) :=
    (h _ _).mpr (List.getElem?_idxOf hmem)
  exact Option.some.inj (hfirst.symm.trans hslot)

/-- **A slot is never out of bounds,** and its entry has the name. -/
theorem exists_entry (h : b.InStep) (hslot : b.slot? name = some slot) :
    ∃ v, b.entries[slot]? = some (name, v) := by
  have hname := (h name slot).mp hslot
  rw [toBindings, Bindings.names, List.getElem?_map] at hname
  obtain ⟨⟨n, v⟩, hentry, rfl⟩ := Option.map_eq_some_iff.mp hname
  exact ⟨v, hentry⟩

/-- A name without a slot has no entry. -/
theorem not_mem_of_slot?_eq_none (h : b.InStep) (hslot : b.slot? name = none) :
    name ∉ b.toBindings.names := by
  intro hmem
  rw [(h _ _).mpr (List.getElem?_idxOf hmem)] at hslot
  cases hslot

/-- Two slots do not have the same name. -/
theorem nodup_names (h : b.InStep) : b.toBindings.names.Nodup := by
  rw [List.nodup_iff_getElem?_ne_getElem?]
  intro i j hij hj heq
  rw [List.getElem?_eq_getElem hj] at heq
  have hi := (h _ i).mpr heq
  rw [(h _ j).mpr (List.getElem?_eq_getElem hj)] at hi
  have hsame : j = i := Option.some.inj hi
  omega

/-- **A name is read through the index as without it.** -/
theorem get?_eq (h : b.InStep) (name : String) : b.get? name = some (b.toBindings.get? name) := by
  rcases hslot : b.slot? name with _ | slot
  · have hnone : b.toBindings.get? name = none := by
      rw [← Option.not_isSome_iff_eq_none, Bindings.isSome_get?_iff]
      exact h.not_mem_of_slot?_eq_none hslot
    rw [get?_of_no_slot hslot, hnone]
  · obtain ⟨v, hentry⟩ := h.exists_entry hslot
    have hsome : b.toBindings.get? name = some v :=
      Bindings.get?_of_mem h.nodup_names (List.mem_of_getElem? hentry)
    rw [get?_of_entry hslot hentry, hsome]

theorem contains_eq (h : b.InStep) (name : String) :
    b.contains name = b.toBindings.contains name := by
  rw [Bool.eq_iff_iff, Bindings.contains_iff, Bindings.isSome_get?_iff, contains,
    Option.isSome_iff_exists]
  constructor
  · rintro ⟨slot, hslot⟩
    exact List.mem_of_getElem? ((h name slot).mp hslot)
  · intro hmem
    exact ⟨_, (h name _).mpr (List.getElem?_idxOf hmem)⟩

/-- A new slot behind the others, for a name that has none. -/
theorem append (h : b.InStep) (hslot : b.slot? name = none) (value : Int32) :
    InStep ⟨(name, b.entries.length) :: b.index, b.entries ++ [(name, value)]⟩ := by
  intro other slot
  have hindex : slot? ⟨(name, b.entries.length) :: b.index, b.entries ++ [(name, value)]⟩ other =
      if other = name then some b.entries.length else b.slot? other := by
    rw [slot?, List.lookup_cons]
    by_cases ho : other = name
    · simp [ho]
    · rw [beq_eq_false_iff_ne.mpr ho, if_neg ho, slot?]
  have hnames : (b.entries ++ [(name, value)]).map (·.1) = b.toBindings.names ++ [name] := by
    rw [List.map_append, List.map_singleton, toBindings, Bindings.names]
  have hlength : b.toBindings.names.length = b.entries.length := List.length_map _
  rw [hindex, toBindings, Bindings.names, hnames, List.getElem?_append, hlength]
  by_cases ho : other = name
  · subst ho
    rw [if_pos rfl]
    by_cases hlt : slot < b.entries.length
    · -- An old slot does not have the new name.
      rw [if_pos hlt, ← h other slot, hslot]
      simp only [Option.some.injEq, reduceCtorEq, iff_false]
      omega
    · rw [if_neg hlt, List.getElem?_singleton]
      simp only [Option.some.injEq, Option.ite_none_right_eq_some, and_true]
      omega
  · rw [if_neg ho, h other slot]
    by_cases hlt : slot < b.entries.length
    · rw [if_pos hlt]
    · rw [if_neg hlt, List.getElem?_eq_none (by omega), List.getElem?_singleton]
      simp [Ne.symm ho]

/-- **Binding a name keeps the index in step,** and does what binding it without an index does. -/
theorem exists_set (h : b.InStep) (name : String) (value : Int32) :
    ∃ next, b.set name value = some next ∧ next.InStep ∧
      next.toBindings = b.toBindings.set name value := by
  rcases hslot : b.slot? name with _ | slot
  · refine ⟨_, set_of_no_slot hslot value, h.append hslot value, ?_⟩
    rw [Bindings.set, Bindings.put_eq_append (h.not_mem_of_slot?_eq_none hslot)]
    rfl
  · obtain ⟨v, hentry⟩ := h.exists_entry hslot
    have hname : b.toBindings.names[slot]? = some name := (h name slot).mp hslot
    refine ⟨_, set_of_entry hslot hentry value, ?_, ?_⟩
    · -- The entry keeps its name, so all names stay where they are.
      have hnames : (b.entries.set slot (name, value)).map (·.1) = b.toBindings.names := by
        obtain ⟨hlt, hat⟩ := List.getElem?_eq_some_iff.mp hname
        rw [List.map_set]
        show b.toBindings.names.set slot name = b.toBindings.names
        rw [← hat]
        exact List.set_getElem_self hlt
      intro other slot'
      rw [slot?, toBindings, Bindings.names, hnames]
      exact h other slot'
    · rw [Bindings.set, Bindings.put_eq_set (List.mem_of_getElem? hname)]
      have hfirst : (b.toBindings.entries.map (·.1)).idxOf name = slot := h.idxOf_eq hslot
      rw [hfirst]
      rfl

end InStep
end IndexedBindings
end PolishCalc
