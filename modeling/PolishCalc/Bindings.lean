import PolishCalc.Fault
import PolishCalc.Text.Lines
import PolishCalc.Text.Numeral

/-! # Bindings of variables

A store binds names to numbers and remembers the order in which the names were
first bound: binding a name again changes its value and not its place.  What a
store says about a name is `get?`, what is shown of it is the list of its
entries, and the equations below give the effect of `set` on both.
-/
namespace PolishCalc

open Text (joinLines)

/-- The names that are bound, with their values, in order of first binding. -/
structure Bindings where
  /-- One entry for each name. -/
  entries : List (String × Int32) := []
deriving DecidableEq, Repr

namespace Bindings

/-- Give `name` the value `value` in the entry that has the name already, or in a
new one at the end. -/
def put (name : String) (value : Int32) : List (String × Int32) → List (String × Int32)
  | [] => [(name, value)]
  | (n, v) :: rest =>
    if n = name then (n, value) :: rest else (n, v) :: put name value rest

/-- Bind `name` to `value`. -/
def set (b : Bindings) (name : String) (value : Int32) : Bindings :=
  ⟨put name value b.entries⟩

/-- The value of `name`, if it is bound. -/
def get? (b : Bindings) (name : String) : Option Int32 := b.entries.lookup name

/-- The names that are bound, in order of first binding. -/
def names (b : Bindings) : List String := b.entries.map (·.1)

/-- `name` is bound. -/
def contains (b : Bindings) (name : String) : Bool := b.names.contains name

/-- The number of names that are bound. -/
def size (b : Bindings) : Nat := b.entries.length

/-- No name is bound. -/
def isEmpty (b : Bindings) : Bool := b.entries.isEmpty

/-- The value of `name`, or the fault of reading a variable that has none. -/
def read (b : Bindings) (name : String) : Except Fault Int32 :=
  match b.get? name with
  | some v => .ok v
  | none => .error (.uninitialized name)

/-- One line of a report. -/
def entryLine (entry : String × Int32) : String := entry.1 ++ ": " ++ Numeral.text entry.2

/-- The bindings as text, a line for each name. -/
def report (b : Bindings) : String := joinLines (b.entries.map entryLine)

/-! ## What binding a name changes -/

theorem lookup_put (name other : String) (value : Int32) (entries : List (String × Int32)) :
    (put name value entries).lookup other =
      if other = name then some value else entries.lookup other := by
  induction entries with
  | nil =>
    by_cases ho : other = name
    · simp [put, ho]
    · simp [put, List.lookup_cons, beq_eq_false_iff_ne.mpr ho, ho]
  | cons entry rest ih =>
    obtain ⟨n, v⟩ := entry
    by_cases ho : other = n
    · subst ho
      by_cases hn : other = name <;> simp [put, hn]
    · have hb : (other == n) = false := beq_eq_false_iff_ne.mpr ho
      by_cases hn : n = name
      · simp [put, List.lookup_cons, hb, ← hn, ho]
      · simp [put, List.lookup_cons, hb, hn, ih]

/-- **Binding a name sets its value and no other.** -/
theorem get?_set (b : Bindings) (name other : String) (value : Int32) :
    (b.set name value).get? other = if other = name then some value else b.get? other :=
  lookup_put name other value b.entries

theorem put_names (name : String) (value : Int32) (entries : List (String × Int32)) :
    (put name value entries).map (·.1) =
      if name ∈ entries.map (·.1) then entries.map (·.1) else entries.map (·.1) ++ [name] := by
  induction entries with
  | nil => simp [put]
  | cons entry rest ih =>
    obtain ⟨n, v⟩ := entry
    by_cases hn : n = name
    · simp [put, hn]
    · have hn' : ¬ name = n := fun h => hn h.symm
      simp only [put, if_neg hn, List.map_cons, ih, List.mem_cons, hn', false_or]
      split <;> rfl

/-- **Binding a name keeps the order of the names,** and a new one comes last. -/
theorem names_set (b : Bindings) (name : String) (value : Int32) :
    (b.set name value).names = if name ∈ b.names then b.names else b.names ++ [name] :=
  put_names name value b.entries

end Bindings
end PolishCalc
