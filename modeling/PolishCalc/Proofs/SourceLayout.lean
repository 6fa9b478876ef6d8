import Mathlib.Logic.ExistsUnique
import PolishCalc.Proofs.ReadTokens

/-! # The layout of source text

Source text is read as its words, and words are what is left when every run of blanks is forgotten.
`Text.Writes` states the other direction, from words to text, and without cutting anything up:
blanks may be put in front of what is written, and a word in front of anything that does not go on
with the word.  Which words a text writes can be told in one way only, because a word ends at the
first blank behind it; and every text writes some, because a character that is no blank begins a
word or belongs to the one behind it.  So writing and cutting are the same relation
(`Text.words_eq_iff`), and a program depends on its source text through the words alone.

Nothing but a blank ends a word, so a word of a program's text is one of its tokens as it stands.
The names of the program are among them, which makes them words too.
-/
namespace PolishCalc

open Text (IsWord)

/-! ## Words and the texts that write them -/

namespace Text

/-- `cs` writes the words `ws` in order: blanks stand between two words, at least one, and blanks in
any number stand in front of the first word and behind the last. -/
inductive Writes : List String → List Char → Prop
  | nil : Writes [] []
  | blank {c : Char} {ws : List String} {cs : List Char} (blank : isBlank c)
      (rest : Writes ws cs) : Writes ws (c :: cs)
  | word {w : String} {ws : List String} {cs : List Char} (word : IsWord w) (ends : EndsWord cs)
      (rest : Writes ws cs) : Writes (w :: ws) (w.toList ++ cs)

variable {ws : List String} {cs : List Char}

/-- Any run of blanks can stand in front of what is written. -/
theorem Writes.blanks_append {front : List Char} (hfront : ∀ c ∈ front, isBlank c)
    (h : Writes ws cs) : Writes ws (front ++ cs) := by
  induction front with
  | nil => exact h
  | cons c front ih =>
    obtain ⟨hc, hfront⟩ := List.forall_mem_cons.mp hfront
    exact .blank hc (ih hfront)

/-- Any run of blanks, at least one, can stand between a word and what is written behind it. -/
theorem Writes.word_append {w : String} {gap : List Char} (hw : IsWord w) (hne : gap ≠ [])
    (hgap : ∀ c ∈ gap, isBlank c) (h : Writes ws cs) :
    Writes (w :: ws) (w.toList ++ (gap ++ cs)) := by
  refine .word hw ?_ (h.blanks_append hgap)
  obtain ⟨c, gap, rfl⟩ := List.exists_cons_of_ne_nil hne
  rintro _ ⟨⟩
  exact hgap c List.mem_cons_self

/-- **What is written is read:** the words of a text are those that it writes. -/
theorem Writes.wordsOf_eq (h : Writes ws cs) : wordsOf cs = ws := by
  induction h with
  | nil => rfl
  | blank hc _ ih => rw [wordsOf_cons_blank hc, ih]
  | @word w ws cs hw ends _ ih =>
    have hword : wordsOf w.toList = [w] := words_of_isWord hw
    cases cs with
    | nil => rw [List.append_nil, hword, ← ih, wordsOf_nil]
    | cons c cs =>
      have hc : isBlank c := ends c rfl
      rw [wordsOf_cons_blank hc] at ih
      rw [wordsOf_append hc, hword, ih, List.singleton_append]

/-- Characters without blanks, at least one, are a word where they end. -/
theorem Writes.ofList_append {w : List Char} (hne : w ≠ []) (hw : ∀ c ∈ w, isBlank c = false)
    (ends : EndsWord cs) (h : Writes ws cs) : Writes (String.ofList w :: ws) (w ++ cs) := by
  have hword := Writes.word (isWord_ofList.mpr ⟨hne, hw⟩) ends h
  rwa [String.toList_ofList] at hword

/-- Every text writes some words. -/
theorem exists_writes (cs : List Char) : ∃ ws, Writes ws cs := by
  induction cs with
  | nil => exact ⟨[], .nil⟩
  | cons c cs ih =>
    obtain ⟨ws, h⟩ := ih
    cases hc : isBlank c with
    | true => exact ⟨ws, .blank hc h⟩
    | false =>
      -- The character is a word of its own, unless what follows begins with a word.
      have hsingle : ∀ d ∈ [c], isBlank d = false := List.forall_mem_singleton.mpr hc
      cases h with
      | nil => exact ⟨_, .ofList_append (List.cons_ne_nil c []) hsingle endsWord_nil .nil⟩
      | @blank b ws cs hb rest =>
        have hends : EndsWord (b :: cs) := by
          rintro _ ⟨⟩
          exact hb
        exact ⟨_, .ofList_append (List.cons_ne_nil c []) hsingle hends (.blank hb rest)⟩
      | @word w ws cs hw ends rest =>
        exact ⟨_, .ofList_append (List.cons_ne_nil c w.toList)
          (List.forall_mem_cons.mpr ⟨hc, hw.2⟩) ends rest⟩

/-- **The words of a text are the only ones that it writes.** -/
theorem words_eq_iff {s : String} : words s = ws ↔ Writes ws s.toList := by
  constructor
  · rintro rfl
    obtain ⟨ws, h⟩ := exists_writes s.toList
    have hwords : words s = ws := h.wordsOf_eq
    rwa [hwords]
  · exact Writes.wordsOf_eq

/-- Words can be written, with a space behind each. -/
theorem exists_writes_of_isWord (h : ∀ w ∈ ws, IsWord w) : ∃ s : String, Writes ws s.toList := by
  induction ws with
  | nil => exact ⟨"", .nil⟩
  | cons w ws ih =>
    obtain ⟨hw, hrest⟩ := List.forall_mem_cons.mp h
    obtain ⟨s, hs⟩ := ih hrest
    refine ⟨w ++ " " ++ s, ?_⟩
    rw [String.toList_append, String.toList_append, List.append_assoc]
    exact hs.word_append hw (by decide) (List.all_eq_true.mp rfl)

end Text

/-! ## Programs -/

/-- **A program depends on the words of its text only.** -/
theorem Program.ofSource_of_writes {tokens : List String} {source : String}
    (h : Text.Writes tokens source.toList) : ofSource source = ofTokens tokens := by
  rw [ofSource, Text.words_eq_iff.mpr h]

/-- **The layout of source text is irrelevant.**  A text that writes tokens in order, with any
blanks between them, is read as these tokens are, with the same program or the same fault; and
every text writes the tokens of exactly one list.  The tokens that can be written are words.  So
the names of a program that is read from text are words, and those of its variables start with a
letter. -/
theorem layout_of_source_is_irrelevant :
    (∀ tokens source, Text.Writes tokens source.toList →
      Program.ofSource source = Program.ofTokens tokens) ∧
    (∀ source : String, ∃! tokens, Text.Writes tokens source.toList) ∧
    (∀ tokens, (∃ source : String, Text.Writes tokens source.toList) ↔
      ∀ token ∈ tokens, IsWord token) ∧
    (∀ source p, Program.ofSource source = .ok p →
      (∀ name ∈ p.names, IsWord name) ∧
        ∀ a ∈ p, ∀ name ∈ a.value.names, startsWithLetter name) := by
  refine ⟨fun _ _ => Program.ofSource_of_writes, ?_, ?_, ?_⟩
  · intro source
    refine ⟨Text.words source, Text.words_eq_iff.mp rfl, fun tokens h => ?_⟩
    exact (Text.words_eq_iff.mpr h).symm
  · intro tokens
    refine ⟨?_, Text.exists_writes_of_isWord⟩
    rintro ⟨source, h⟩ token htoken
    rw [← Text.words_eq_iff.mpr h] at htoken
    exact Text.isWord_of_mem_words htoken
  · intro source p hread
    exact ⟨Program.isWord_of_ofSource hread,
      (Program.spells_of_ofTokens hread).startsWithLetter⟩

/-- A name with a zero width space in it, among an ideographic space, a line separator and a
no-break space; and a text without a blank, which is a single token and is refused. -/
theorem layout_of_source_is_irrelevant_among_lookalikes :
    let tokens := ["=", "x\u200b", "+", "1", "x\u200b"]
    let p : Program := [.assign "x\u200b" (.binary .add (.const 1) (.var "x\u200b"))]
    Text.Writes tokens "\u3000=\u2028\tx\u200b + 1\r\n\u00a0x\u200b".toList ∧
      Program.ofSource "\u3000=\u2028\tx\u200b + 1\r\n\u00a0x\u200b" = .ok p ∧
      (∀ name ∈ p.names, IsWord name) ∧
      Program.ofSource "@\u001c1" = .error (.illegalAction "@\u001c1") := by
  intro tokens p
  obtain ⟨hsame, -, -, hnames⟩ := layout_of_source_is_irrelevant
  have hwrites : Text.Writes tokens "\u3000=\u2028\tx\u200b + 1\r\n\u00a0x\u200b".toList :=
    Text.words_eq_iff.mp (by rfl)
  have hsingle : Text.Writes ["@\u001c1"] "@\u001c1".toList := Text.words_eq_iff.mp (by rfl)
  have hread : Program.ofSource "\u3000=\u2028\tx\u200b + 1\r\n\u00a0x\u200b" = .ok p :=
    (hsame tokens _ hwrites).trans rfl
  exact ⟨hwrites, hread, (hnames _ p hread).1, (hsame _ _ hsingle).trans rfl⟩

end PolishCalc
