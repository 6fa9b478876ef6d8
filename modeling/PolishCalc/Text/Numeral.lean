import PolishCalc.Text.Words

/-! # Numerals

The calculator's numbers are 32-bit integers, written in decimal.  Reading is
liberal: an optional sign and one or more ASCII digits, leading zeros allowed,
as long as the number fits into 32 bits.  Writing has one form: no plus sign and
no leading zero.  `Denotes` states the liberal rule on its own, `value?` decides
it, and what `text` writes is one of the texts that are read.
-/
namespace PolishCalc.Numeral

open Text (IsWord isBlank isBlank_of_isDigit)

/-- The number that a row of digits writes. -/
def digitsValue (ds : List Char) : Nat := Nat.ofDigitChars 10 ds 0

/-- `s` writes the integer `i`: digits alone, or digits after a sign. -/
def Denotes (s : String) (i : Int) : Prop :=
  ∃ ds : List Char, ds ≠ [] ∧ (∀ d ∈ ds, d.isDigit) ∧
    (s.toList = ds ∧ i = digitsValue ds ∨
      s.toList = '+' :: ds ∧ i = digitsValue ds ∨
      s.toList = '-' :: ds ∧ i = -(digitsValue ds : Int))

/-- The number written by digits alone. -/
def natural? (ds : List Char) : Option Nat :=
  if !ds.isEmpty && ds.all Char.isDigit then some (digitsValue ds) else none

/-- The integer written by digits, with a sign in front or none. -/
def integer? : List Char → Option Int
  | '+' :: ds => (natural? ds).map fun n : Nat => (n : Int)
  | '-' :: ds => (natural? ds).map fun n : Nat => -(n : Int)
  | ds => (natural? ds).map fun n : Nat => (n : Int)

/-- The 32-bit number equal to `i`, if there is one. -/
def fit? (i : Int) : Option Int32 :=
  if Int32.minValue.toInt ≤ i ∧ i ≤ Int32.maxValue.toInt then some (Int32.ofInt i) else none

/-- The number that a text writes. -/
def value? (s : String) : Option Int32 := (integer? s.toList).bind fit?

/-- The decimal text of a natural number, such as a depth. -/
def naturalText (n : Nat) : String := String.ofList (Nat.toDigits 10 n)

/-- The decimal text of a number. -/
def text (v : Int32) : String :=
  let digits := naturalText v.toInt.natAbs
  if v.toInt < 0 then "-" ++ digits else digits

/-! ## What is read -/

theorem natural?_eq_some_iff {ds : List Char} {n : Nat} :
    natural? ds = some n ↔ ds ≠ [] ∧ (∀ d ∈ ds, d.isDigit) ∧ n = digitsValue ds := by
  have hds : (!ds.isEmpty && ds.all Char.isDigit) = true ↔ ds ≠ [] ∧ ∀ d ∈ ds, d.isDigit := by
    simp
  rw [natural?]
  split
  · rename_i h
    rw [Option.some.injEq]
    exact ⟨fun hn => ⟨(hds.mp h).1, (hds.mp h).2, hn.symm⟩, fun hn => hn.2.2.symm⟩
  · rename_i h
    exact ⟨nofun, fun hn => absurd (hds.mpr ⟨hn.1, hn.2.1⟩) h⟩

theorem integer?_eq_some_iff {s : String} {i : Int} :
    integer? s.toList = some i ↔ Denotes s i := by
  unfold Denotes
  constructor
  · intro h
    unfold integer? at h
    split at h
    all_goals
      obtain ⟨n, hn, rfl⟩ := Option.map_eq_some_iff.mp h
      obtain ⟨hne, hds, rfl⟩ := natural?_eq_some_iff.mp hn
    · exact ⟨_, hne, hds, .inr (.inl ⟨by assumption, rfl⟩)⟩
    · exact ⟨_, hne, hds, .inr (.inr ⟨by assumption, rfl⟩)⟩
    · exact ⟨_, hne, hds, .inl ⟨rfl, rfl⟩⟩
  · rintro ⟨ds, hne, hds, h⟩
    have hn : natural? ds = some (digitsValue ds) := natural?_eq_some_iff.mpr ⟨hne, hds, rfl⟩
    rcases h with ⟨h, rfl⟩ | ⟨h, rfl⟩ | ⟨h, rfl⟩
    · rw [h]
      cases ds with
      | nil => exact absurd rfl hne
      | cons d rest =>
        have hd := hds d List.mem_cons_self
        unfold integer?
        split
        · rename_i heq
          rw [(List.cons.inj heq).1] at hd
          exact absurd hd (by decide)
        · rename_i heq
          rw [(List.cons.inj heq).1] at hd
          exact absurd hd (by decide)
        · rw [hn, Option.map_some]
    · rw [h, integer?, hn, Option.map_some]
    · rw [h, integer?, hn, Option.map_some]

theorem fit?_eq_some_iff {i : Int} {v : Int32} : fit? i = some v ↔ v.toInt = i := by
  rw [fit?]
  split
  · rename_i h
    have hhigh : i < 2 ^ 31 := Int.lt_of_le_of_lt h.2 (by decide)
    rw [Option.some.injEq, ← Int32.toInt_inj, Int32.toInt_ofInt_of_le h.1 hhigh, eq_comm]
  · rename_i h
    refine ⟨nofun, fun hv => absurd ?_ h⟩
    rw [← hv]
    exact ⟨v.minValue_le_toInt, v.toInt_le⟩

/-- **A text is read as `v` exactly when it writes `v`.** -/
theorem value?_eq_some_iff {s : String} {v : Int32} :
    value? s = some v ↔ Denotes s v.toInt := by
  rw [value?, Option.bind_eq_some_iff]
  constructor
  · rintro ⟨i, hi, hv⟩
    rw [fit?_eq_some_iff.mp hv]
    exact integer?_eq_some_iff.mp hi
  · intro h
    exact ⟨v.toInt, integer?_eq_some_iff.mpr h, fit?_eq_some_iff.mpr rfl⟩

/-! ## What is written -/

theorem digitsValue_toDigits (n : Nat) : digitsValue (Nat.toDigits 10 n) = n :=
  Nat.ofDigitChars_ten_toDigits

theorem isDigit_of_mem {n : Nat} : ∀ d ∈ Nat.toDigits 10 n, d.isDigit :=
  fun _ hd => Nat.isDigit_of_mem_toDigits (by decide) (by decide) hd

/-- The text of a number writes that number. -/
theorem denotes_text (v : Int32) : Denotes (text v) v.toInt := by
  refine ⟨Nat.toDigits 10 v.toInt.natAbs, Nat.toDigits_ne_nil, isDigit_of_mem, ?_⟩
  rw [digitsValue_toDigits, text]
  split
  · exact .inr (.inr ⟨by simp [naturalText], by omega⟩)
  · exact .inl ⟨by simp [naturalText], by omega⟩

theorem value?_text (v : Int32) : value? (text v) = some v :=
  value?_eq_some_iff.mpr (denotes_text v)

/-- **Numbers with one text are one number.** -/
theorem text_injective {v w : Int32} (h : text v = text w) : v = w :=
  Option.some.inj ((value?_text v).symm.trans (h ▸ value?_text w))

/-- A text that writes a number is a word. -/
theorem Denotes.isWord {s : String} {i : Int} (h : Denotes s i) : IsWord s := by
  obtain ⟨ds, hne, hds, h⟩ := h
  rw [← String.ofList_toList (s := s), Text.isWord_ofList]
  have hb : ∀ d ∈ ds, isBlank d = false := fun d hd => isBlank_of_isDigit (hds d hd)
  rcases h with ⟨h, _⟩ | ⟨h, _⟩ | ⟨h, _⟩ <;> rw [h]
  · exact ⟨hne, hb⟩
  · exact ⟨List.cons_ne_nil _ _, List.forall_mem_cons.mpr ⟨rfl, hb⟩⟩
  · exact ⟨List.cons_ne_nil _ _, List.forall_mem_cons.mpr ⟨rfl, hb⟩⟩

theorem isWord_text (v : Int32) : IsWord (text v) := (denotes_text v).isWord

end PolishCalc.Numeral
