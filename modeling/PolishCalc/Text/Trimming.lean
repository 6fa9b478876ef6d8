import Mathlib.Data.List.DropRight
import PolishCalc.Text.Words

/-! # Trimming

Trimming a text takes the blanks at its two ends away and nothing else (`exists_blanks_trim`).  So
it keeps the words of the text, and it cannot tell how many blanks there were: a text with blanks in
front or behind is trimmed to the same as without them.  What is left neither starts nor ends with a
blank, and such texts, words among them, are the ones that trimming leaves as they are.
-/
namespace PolishCalc.Text

/-- A text that neither starts nor ends with a blank. -/
structure IsTrimmed (s : String) : Prop where
  front : ∀ c ∈ s.toList.head?, isBlank c = false
  back : ∀ c ∈ s.toList.getLast?, isBlank c = false

variable {s w : String}

theorem IsWord.isTrimmed (hw : IsWord w) : IsTrimmed w where
  front := fun c hc => hw.2 c (List.mem_of_mem_head? hc)
  back := fun c hc => hw.2 c (List.mem_of_mem_getLast? hc)

theorem toList_trim (s : String) :
    (trim s).toList = (s.toList.dropWhile isBlank).rdropWhile isBlank :=
  String.toList_ofList

/-! ## Blanks at the ends -/

/-- **Only blanks are taken away,** from the front and from the back. -/
theorem exists_blanks_trim (s : String) :
    ∃ front back : List Char, (∀ c ∈ front, isBlank c) ∧ (∀ c ∈ back, isBlank c) ∧
      s.toList = front ++ (trim s).toList ++ back := by
  refine ⟨s.toList.takeWhile isBlank, (s.toList.dropWhile isBlank).rtakeWhile isBlank,
    fun c => List.mem_takeWhile_imp, fun c => List.mem_rtakeWhile_imp, ?_⟩
  rw [toList_trim, List.append_assoc, List.rdropWhile_append_rtakeWhile,
    List.takeWhile_append_dropWhile]

/-- Blanks behind a text are trimmed. -/
theorem trim_append_blanks (s : String) (hw : ∀ c ∈ w.toList, isBlank c) :
    trim (s ++ w) = trim s := by
  rw [← String.toList_inj, toList_trim, toList_trim, String.toList_append, List.dropWhile_append]
  split
  · rename_i hs
    rw [List.isEmpty_iff.mp hs, List.dropWhile_eq_nil_iff.mpr hw]
  · rw [List.rdropWhile, List.reverse_append,
      List.dropWhile_append_of_pos fun c hc => hw c (List.mem_reverse.mp hc), List.rdropWhile]

/-- A text of blanks is trimmed to nothing, and no other text is. -/
theorem trim_eq_empty_iff : trim s = "" ↔ ∀ c ∈ s.toList, isBlank c := by
  constructor
  · intro h
    obtain ⟨front, back, hfront, hback, hs⟩ := exists_blanks_trim s
    rw [hs, h]
    exact List.forall_mem_append.mpr ⟨List.forall_mem_append.mpr ⟨hfront, nofun⟩, hback⟩
  · intro h
    rw [← String.empty_append (s := s), trim_append_blanks "" h]
    rfl

/-! ## What is left -/

theorem isTrimmed_trim (s : String) : IsTrimmed (trim s) := by
  refine ⟨?_, ?_⟩
  · intro c hc
    -- What is left starts as the text does once the blanks in front are gone.
    rw [toList_trim] at hc
    obtain ⟨back, hback⟩ := List.rdropWhile_prefix isBlank (s.toList.dropWhile isBlank)
    have hhead : (s.toList.dropWhile isBlank).head? = some c := by
      rw [← hback, List.head?_append, Option.mem_def.mp hc, Option.some_or]
    have hnot := List.head?_dropWhile_not isBlank s.toList
    rwa [hhead] at hnot
  · intro c hc
    rw [toList_trim, Option.mem_def, List.getLast?_eq_some_iff] at hc
    obtain ⟨front, hfront⟩ := hc
    have hlast := List.rdropWhile_last_not isBlank (s.toList.dropWhile isBlank) (by simp [hfront])
    simpa [hfront] using hlast

/-- Nothing is taken away from a text without blanks at its ends. -/
theorem IsTrimmed.trim_eq (h : IsTrimmed s) : trim s = s := by
  have hfront : s.toList.dropWhile isBlank = s.toList := by
    cases hs : s.toList with
    | nil => rfl
    | cons c cs => exact List.dropWhile_cons_of_neg (by simp [h.front c (by simp [hs])])
  rw [← String.toList_inj, toList_trim, hfront, List.rdropWhile_eq_self_iff]
  intro hne
  have hlast := h.back _ (List.getLast?_eq_some_getLast hne)
  simp [hlast]

@[simp] theorem trim_trim (s : String) : trim (trim s) = trim s := (isTrimmed_trim s).trim_eq

/-- **Trimming keeps the words.** -/
@[simp] theorem words_trim (s : String) : words (trim s) = words s := by
  obtain ⟨front, back, hfront, hback, hs⟩ := exists_blanks_trim s
  rw [words, words, hs, List.append_assoc, wordsOf_blanks_append hfront,
    wordsOf_append_blanks hback]

/-- A text has no words exactly if it is blank. -/
theorem words_eq_nil_iff : words s = [] ↔ ∀ c ∈ s.toList, isBlank c := by
  refine ⟨isBlank_of_words_eq_nil, fun h => ?_⟩
  rw [← words_trim, trim_eq_empty_iff.mpr h]
  rfl

end PolishCalc.Text
