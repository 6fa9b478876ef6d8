import PolishCalc.Bindings

/-! # Bindings with an index

To find a name without a walk along the entries, a store keeps an index beside
them: the slot at which the entry of each name stands.  A name is then read in two
steps, from the index to the slot and from the slot to the entry, and a name that is
new is written in both places.

Nothing in the types keeps the two in step.  An index that is wrong could lead to the
entry of another name, or beyond the last slot, where there is nothing to read or to
overwrite; there an operation has no result.  That this never happens, and that such a
store answers as `Bindings` do, is shown in `PolishCalc.Proofs.IndexedStore`.
-/
namespace PolishCalc

/-- Names and their values by slot, and the slots by name. -/
structure IndexedBindings where
  /-- The slot of each name. -/
  index : List (String × Nat) := []
  /-- The names with their values, in order of first binding. -/
  entries : List (String × Int32) := []
deriving DecidableEq, Repr

namespace IndexedBindings

/-- The bindings without the index. -/
def toBindings (b : IndexedBindings) : Bindings := ⟨b.entries⟩

/-- The slot of `name`, if it has one. -/
def slot? (b : IndexedBindings) (name : String) : Option Nat := b.index.lookup name

/-- Bind `name` to `value`: in its slot, which keeps the name it has, or in a new slot
behind the others. -/
def set (b : IndexedBindings) (name : String) (value : Int32) : Option IndexedBindings :=
  match b.slot? name with
  | some slot =>
    b.entries[slot]?.map fun entry => { b with entries := b.entries.set slot (entry.1, value) }
  | none =>
    some ⟨(name, b.entries.length) :: b.index, b.entries ++ [(name, value)]⟩

/-- The value of `name`, if it is bound. -/
def get? (b : IndexedBindings) (name : String) : Option (Option Int32) :=
  match b.slot? name with
  | some slot => b.entries[slot]?.map fun entry => some entry.2
  | none => some none

/-- `name` is bound. -/
def contains (b : IndexedBindings) (name : String) : Bool := (b.slot? name).isSome

/-- The number of names that are bound. -/
def size (b : IndexedBindings) : Nat := b.entries.length

/-- No name is bound. -/
def isEmpty (b : IndexedBindings) : Bool := b.entries.isEmpty

/-- Bind names to values, one after the other. -/
def setAll (b : IndexedBindings) (calls : List (String × Int32)) : Option IndexedBindings :=
  calls.foldlM (fun b call => b.set call.1 call.2) b

/-! ## With and without a slot -/

variable {b : IndexedBindings} {name : String} {slot : Nat} {entry : String × Int32}

theorem set_of_entry (hslot : b.slot? name = some slot) (hentry : b.entries[slot]? = some entry)
    (value : Int32) :
    b.set name value = some { b with entries := b.entries.set slot (entry.1, value) } := by
  simp only [set, hslot, hentry, Option.map_some]

theorem set_of_no_slot (hslot : b.slot? name = none) (value : Int32) :
    b.set name value =
      some ⟨(name, b.entries.length) :: b.index, b.entries ++ [(name, value)]⟩ := by
  simp only [set, hslot]

theorem get?_of_entry (hslot : b.slot? name = some slot)
    (hentry : b.entries[slot]? = some entry) : b.get? name = some (some entry.2) := by
  simp only [get?, hslot, hentry, Option.map_some]

theorem get?_of_no_slot (hslot : b.slot? name = none) : b.get? name = some none := by
  simp only [get?, hslot]

theorem setAll_cons (b : IndexedBindings) (call : String × Int32)
    (rest : List (String × Int32)) :
    b.setAll (call :: rest) = (b.set call.1 call.2).bind fun next => next.setAll rest := rfl

end IndexedBindings
end PolishCalc
