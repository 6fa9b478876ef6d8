import Mathlib.Data.List.Induction
import PolishCalc.Proofs.InstructionText
import PolishCalc.Proofs.ReadTokens

/-! # Literals

Numbers are read in two places: the reader takes them from the tokens of source text, and the
machine from the operands of its `PUSH` lines.  Both ask the same question of a word, namely which
number it denotes, and neither has another use for a word that denotes one: it is no operator's
symbol and no name.  So what is a literal in the one place is the same literal in the other.

A row of digits is bounded by its value and not by its length.  It consists of zeros and of the
digits that its value is printed with (`Numeral.exists_eq_zeros_append`), so the literals of one
number differ in these zeros and in the sign only (`Numeral.denotes_iff`), and the shortest of them
is what is printed.
-/
namespace PolishCalc

open Text (IsWord)

namespace Numeral

variable {ds : List Char} {s : String}

/-! ## The texts of one number -/

/-- A digit is the character of its value. -/
theorem exists_eq_digitChar {c : Char} (h : c.isDigit) :
    ∃ d < 10, c = Nat.digitChar d ∧ c.toNat - '0'.toNat = d := by
  have range := Text.toNat_of_isDigit h
  refine ⟨c.toNat - 48, by omega, ?_, rfl⟩
  rw [← Char.toNat_inj, Nat.toNat_digitChar_of_lt_ten (by omega)]
  omega

/-- Zeros in front of digits do not count. -/
theorem digitsValue_zeros_append (n : Nat) (ds : List Char) :
    digitsValue (List.replicate n '0' ++ ds) = digitsValue ds := by
  rw [digitsValue, Nat.ofDigitChars_append, Nat.ofDigitChars_replicate_zero, Nat.mul_zero,
    digitsValue]

/-- **A row of digits is its value as it is printed, behind zeros.** -/
theorem exists_eq_zeros_append (hne : ds ≠ []) (hds : ∀ d ∈ ds, d.isDigit) :
    ∃ n, ds = List.replicate n '0' ++ Nat.toDigits 10 (digitsValue ds) := by
  induction ds using List.reverseRecOn with
  | nil => exact absurd rfl hne
  | append_singleton ds c ih =>
    obtain ⟨hfront, hlast⟩ := List.forall_mem_append.mp hds
    obtain ⟨d, hd, rfl, hvalue⟩ := exists_eq_digitChar (hlast c List.mem_cons_self)
    have hdigit : [Nat.digitChar d] = Nat.toDigits 10 d := (Nat.toDigits_of_lt_base hd).symm
    have happend : digitsValue (ds ++ [Nat.digitChar d]) = 10 * digitsValue ds + d := by
      rw [digitsValue, Nat.ofDigitChars_append, Nat.ofDigitChars_cons, hvalue,
        Nat.ofDigitChars_nil, digitsValue]
    rw [happend, hdigit]
    by_cases hempty : ds = []
    · subst hempty
      exact ⟨0, by simp [digitsValue]⟩
    obtain ⟨n, hn⟩ := ih hempty hfront
    rcases Nat.eq_zero_or_pos (digitsValue ds) with hzero | hpos
    · -- Only zeros so far: the one that zero is printed with is another one in front of `d`.
      refine ⟨n + 1, ?_⟩
      rw [hzero, Nat.toDigits_zero] at hn
      rw [hzero, Nat.mul_zero, Nat.zero_add, List.replicate_succ', ← hn]
    · refine ⟨n, ?_⟩
      rw [← Nat.toDigits_append_toDigits (by decide) hpos hd, ← List.append_assoc, ← hn]

/-- A sign that the digits of `i` may stand behind: plus or none if `i` is not below zero, and
minus if it is not above. -/
def IsSign (sign : String) (i : Int) : Prop :=
  (sign = "" ∨ sign = "+") ∧ 0 ≤ i ∨ sign = "-" ∧ i ≤ 0

/-- **The texts that write a number:** its digits as they are printed, behind any number of zeros
and a sign. -/
theorem denotes_iff {i : Int} :
    Denotes s i ↔ ∃ sign n, IsSign sign i ∧
      s = sign ++ String.ofList (List.replicate n '0') ++ naturalText i.natAbs := by
  constructor
  · rintro ⟨ds, hne, hds, h⟩
    obtain ⟨n, hn⟩ := exists_eq_zeros_append hne hds
    have htext (sign : String) (hs : s.toList = sign.toList ++ ds) :
        s = sign ++ String.ofList (List.replicate n '0') ++ naturalText (digitsValue ds) := by
      rw [← String.toList_inj, hs]
      simpa [naturalText] using hn
    rcases h with ⟨hs, rfl⟩ | ⟨hs, rfl⟩ | ⟨hs, rfl⟩
    · exact ⟨"", n, .inl ⟨.inl rfl, by omega⟩, htext "" hs⟩
    · exact ⟨"+", n, .inl ⟨.inr rfl, by omega⟩, htext "+" hs⟩
    · refine ⟨"-", n, .inr ⟨rfl, by omega⟩, ?_⟩
      rw [Int.natAbs_neg]
      exact htext "-" hs
  · rintro ⟨sign, n, hsign, rfl⟩
    refine ⟨List.replicate n '0' ++ Nat.toDigits 10 i.natAbs, ?_, ?_, ?_⟩
    · simp [Nat.toDigits_ne_nil]
    · rw [List.forall_mem_append]
      refine ⟨fun d hd => ?_, isDigit_of_mem⟩
      rw [List.eq_of_mem_replicate hd]
      rfl
    · rw [digitsValue_zeros_append, digitsValue_toDigits]
      rcases hsign with ⟨rfl | rfl, hi⟩ | ⟨rfl, hi⟩
      · exact .inl ⟨by simp [naturalText], by omega⟩
      · exact .inr (.inl ⟨by simp [naturalText], by omega⟩)
      · exact .inr (.inr ⟨by simp [naturalText], by omega⟩)

end Numeral

variable {t : String} {v : Int32}

/-! ## In source text -/

theorem Expr.spells_const_iff : (Expr.const v).Spells [t] ↔ Numeral.Denotes t v.toInt := by
  refine ⟨fun h => ?_, .const⟩
  cases h with
  | const writes => exact writes

theorem Statement.spells_print_iff {e : Expr} {ts : List String} :
    (Statement.print e).Spells (printToken :: ts) ↔ e.Spells ts := by
  refine ⟨fun h => ?_, .print⟩
  cases h with
  | print value => exact value

/-- A program of one statement is spelled as this statement. -/
theorem Program.spells_singleton_iff {a : Statement} {ts : List String} :
    Spells [a] ts ↔ a.Spells ts := by
  refine ⟨fun h => ?_, Statement.Spells.program⟩
  cases h with
  | cons first rest =>
    cases rest
    rwa [List.append_nil]

/-- **A token is read as the number that it denotes,** and as a number only then. -/
theorem Program.ofTokens_print_const_iff :
    ofTokens [printToken, t] = .ok [.print (.const v)] ↔ Numeral.Denotes t v.toInt :=
  calc ofTokens [printToken, t] = .ok [.print (.const v)]
    _ ↔ Spells [.print (.const v)] [printToken, t] := ⟨spells_of_ofTokens, ofTokens_of_spells⟩
    _ ↔ (Statement.print (.const v)).Spells [printToken, t] := spells_singleton_iff
    _ ↔ (Expr.const v).Spells [t] := Statement.spells_print_iff
    _ ↔ Numeral.Denotes t v.toInt := Expr.spells_const_iff

/-! ## In instruction text -/

/-- **An operand is read as the number that it denotes,** if it is a word. -/
theorem Instruction.readLine_push_iff (ht : IsWord t) :
    readLine ("PUSH " ++ t) = .ok (some (.push v)) ↔ Numeral.Denotes t v.toInt := by
  have hwords : Text.words ("PUSH " ++ t) = ["PUSH", t] := by
    rw [show ("PUSH " : String) = "PUSH" ++ " " from rfl, Text.words_append_space (by decide),
      Text.words_of_isWord ht]
  rw [← Numeral.value?_eq_some_iff, readLine, hwords]
  show (ofWords _ "PUSH" [t]).map some = _ ↔ _
  rw [map_eq_ok_iff]
  simp only [ofWords, List.head?_cons, Option.bind_some]
  cases Numeral.value? t <;> simp

/-- **Literals are read alike.**  In source text a word is read as a number exactly if it denotes
this number, and so it is behind `PUSH` in instruction text.  The words that denote a number are its
digits as they are printed, behind any number of zeros and a sign that fits.  What is printed for
a number denotes it, and is neither an operator's symbol nor a name. -/
theorem literals_are_read_alike :
    (∀ (t : String) (v : Int32), IsWord t →
      (Program.ofTokens [printToken, t] = .ok [.print (.const v)] ↔
        Instruction.readLine ("PUSH " ++ t) = .ok (some (.push v))) ∧
      (Instruction.readLine ("PUSH " ++ t) = .ok (some (.push v)) ↔
        Numeral.Denotes t v.toInt)) ∧
    (∀ (t : String) (v : Int32), Numeral.Denotes t v.toInt ↔
      ∃ sign n, Numeral.IsSign sign v.toInt ∧
        t = sign ++ String.ofList (List.replicate n '0') ++
          Numeral.naturalText v.toInt.natAbs) ∧
    (∀ v : Int32, Numeral.Denotes (Numeral.text v) v.toInt ∧
      UnaryOp.ofSymbol? (Numeral.text v) = none ∧ BinaryOp.ofSymbol? (Numeral.text v) = none ∧
      startsWithLetter (Numeral.text v) = false) := by
  refine ⟨fun t v ht => ?_, fun t v => Numeral.denotes_iff, fun v => ?_⟩
  · have hline := Instruction.readLine_push_iff (v := v) ht
    exact ⟨Program.ofTokens_print_const_iff.trans hline.symm, hline⟩
  · have hdenotes := Numeral.denotes_text v
    have htoken := Expr.ofToken?_of_denotes hdenotes
    exact ⟨hdenotes, UnaryOp.ofSymbol?_of_ofToken? htoken, BinaryOp.ofSymbol?_of_ofToken? htoken,
      startsWithLetter_of_denotes hdenotes⟩

/-- The least number behind zeros that make it longer than any number without them; and words that
are no literals in either place, two of them for their value, a sign alone, two signs, and a digit
that is not an ASCII one. -/
theorem literals_are_read_alike_at_the_ends :
    Program.ofTokens [printToken, "-0002147483648"] = .ok [.print (.const (-2147483648))] ∧
      Instruction.readLine ("PUSH " ++ "-0002147483648") = .ok (some (.push (-2147483648))) ∧
      (∀ t ∈ ["2147483648", "-2147483649", "-", "+-1", "\u0661"], ∀ v : Int32,
        Program.ofTokens [printToken, t] ≠ .ok [.print (.const v)] ∧
          Instruction.readLine ("PUSH " ++ t) ≠ .ok (some (.push v))) := by
  obtain ⟨hread, htexts, -⟩ := literals_are_read_alike
  have hleast : Numeral.Denotes "-0002147483648" (-2147483648 : Int32).toInt :=
    (htexts _ _).mpr ⟨"-", 3, .inr ⟨rfl, by decide⟩, by decide⟩
  obtain ⟨hsame, hpush⟩ := hread "-0002147483648" (-2147483648) (by decide)
  refine ⟨hsame.mpr (hpush.mpr hleast), hpush.mpr hleast, fun t ht v => ?_⟩
  have hword : ∀ t ∈ ["2147483648", "-2147483649", "-", "+-1", "\u0661"],
      IsWord t ∧ Numeral.value? t = none := by decide
  obtain ⟨hword, hnone⟩ := hword t ht
  obtain ⟨hsame, hpush⟩ := hread t v hword
  have hnot : ¬ Numeral.Denotes t v.toInt := by
    rw [← Numeral.value?_eq_some_iff, hnone]
    exact nofun
  exact ⟨fun h => hnot (hpush.mp (hsame.mp h)), fun h => hnot (hpush.mp h)⟩

end PolishCalc
