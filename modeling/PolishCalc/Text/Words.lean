import PolishCalc.Text.Blank
import PolishCalc.Text.Pieces

/-! # Words

A word is a non-empty text without blanks, and the words of a text are what its
blanks leave: how many blanks stand between two words, and which, is lost.  A
name survives being written into a line and read back exactly when it is a word,
so `IsWord` is the condition that many statements about programs carry.
-/
namespace PolishCalc.Text

/-- No character of `s` is a blank. -/
def BlankFree (s : String) : Prop := ∀ c ∈ s.toList, isBlank c = false

instance (s : String) : Decidable (BlankFree s) :=
  decidable_of_iff (s.toList.all (!isBlank ·)) (by simp [BlankFree])

theorem BlankFree.append {s t : String} (hs : BlankFree s) (ht : BlankFree t) :
    BlankFree (s ++ t) := by
  rw [BlankFree, String.toList_append, List.forall_mem_append]
  exact ⟨hs, ht⟩

/-- A non-empty text without blanks. -/
def IsWord (s : String) : Prop := s ≠ "" ∧ BlankFree s

instance (s : String) : Decidable (IsWord s) :=
  decidable_of_iff (!s.isEmpty && decide (BlankFree s)) (by simp [IsWord])

/-- The words among characters. -/
def wordsOf (cs : List Char) : List String :=
  ((pieces isBlank cs).filter (!·.isEmpty)).map String.ofList

/-- The words of a text, in order. -/
def words (s : String) : List String := wordsOf s.toList

/-- A text without the blanks at its two ends. -/
def trim (s : String) : String :=
  String.ofList ((s.toList.dropWhile isBlank).reverse.dropWhile isBlank).reverse

theorem isWord_ofList {w : List Char} :
    IsWord (String.ofList w) ↔ w ≠ [] ∧ ∀ c ∈ w, isBlank c = false := by
  rw [IsWord, BlankFree, String.toList_ofList, ne_eq, ne_eq,
    show ("" : String) = String.ofList [] from rfl, String.ofList_inj]

@[simp] theorem wordsOf_nil : wordsOf [] = [] := rfl

/-- A blank in front adds no word. -/
theorem wordsOf_cons_blank {c : Char} (h : isBlank c) (cs : List Char) :
    wordsOf (c :: cs) = wordsOf cs := by
  rw [wordsOf, pieces_cons_pos isBlank h, List.filter_cons_of_neg (by simp), wordsOf]

/-- **Texts with a blank between them:** their words are those of the one and then those of the
other. -/
theorem wordsOf_append {b : Char} (hb : isBlank b) (cs ds : List Char) :
    wordsOf (cs ++ b :: ds) = wordsOf cs ++ wordsOf ds := by
  rw [wordsOf, pieces_append isBlank hb, List.filter_append, List.map_append, wordsOf, wordsOf]

/-- Blanks in front add no word. -/
theorem wordsOf_blanks_append {ws : List Char} (hws : ∀ c ∈ ws, isBlank c) (cs : List Char) :
    wordsOf (ws ++ cs) = wordsOf cs := by
  induction ws with
  | nil => rfl
  | cons c ws ih =>
    obtain ⟨hc, hrest⟩ := List.forall_mem_cons.mp hws
    rw [List.cons_append, wordsOf_cons_blank hc, ih hrest]

/-- Blanks behind add no word. -/
theorem wordsOf_append_blanks {ws : List Char} (hws : ∀ c ∈ ws, isBlank c) (cs : List Char) :
    wordsOf (cs ++ ws) = wordsOf cs := by
  cases ws with
  | nil => rw [List.append_nil]
  | cons c ws =>
    obtain ⟨hc, hrest⟩ := List.forall_mem_cons.mp hws
    have hblank : wordsOf ws = [] := by simpa using wordsOf_blanks_append hrest []
    rw [wordsOf_append hc, hblank, List.append_nil]

/-- A word that ends the text. -/
theorem wordsOf_of_blankFree {w : List Char} (hne : w ≠ []) (hw : ∀ c ∈ w, isBlank c = false) :
    wordsOf w = [String.ofList w] := by
  rw [wordsOf, pieces_of_unmarked isBlank hw, List.filter_cons_of_pos (by simpa using hne)]
  rfl

theorem isWord_of_mem_wordsOf {cs : List Char} {s : String} (h : s ∈ wordsOf cs) : IsWord s := by
  obtain ⟨w, hw, rfl⟩ := List.mem_map.mp h
  obtain ⟨hp, hne⟩ := List.mem_filter.mp hw
  exact isWord_ofList.mpr ⟨by simpa using hne, unmarked_of_mem_pieces isBlank hp⟩

/-- **Texts with blanks between them,** at least one. -/
theorem words_append_blanks {w : String} (hne : w ≠ "") (hw : ∀ c ∈ w.toList, isBlank c)
    (s t : String) : words (s ++ w ++ t) = words s ++ words t := by
  obtain ⟨c, ws, hcs⟩ := List.exists_cons_of_ne_nil (l := w.toList) (by simpa using hne)
  rw [hcs] at hw
  obtain ⟨hc, hws⟩ := List.forall_mem_cons.mp hw
  rw [words, words, words, String.toList_append, String.toList_append, hcs, List.append_assoc,
    List.cons_append, wordsOf_append hc, wordsOf_blanks_append hws]

/-- **What `words` returns are words.** -/
theorem isWord_of_mem_words {s w : String} (h : w ∈ words s) : IsWord w :=
  isWord_of_mem_wordsOf h

/-- A word is its own only word. -/
theorem words_of_isWord {s : String} (h : IsWord s) : words s = [s] := by
  rw [words, wordsOf_of_blankFree (by simpa using h.1) h.2, String.ofList_toList]

/-- A text without words is blank. -/
theorem isBlank_of_words_eq_nil {s : String} (h : words s = []) : ∀ c ∈ s.toList, isBlank c := by
  rw [words] at h
  generalize s.toList = cs at h ⊢
  induction cs with
  | nil => exact nofun
  | cons c cs ih =>
    cases hc : isBlank c with
    | true =>
      rw [wordsOf_cons_blank hc] at h
      exact List.forall_mem_cons.mpr ⟨hc, ih h⟩
    | false =>
      -- A character that is no blank is in the first piece, which is then a word.
      rw [wordsOf, pieces_cons_neg isBlank hc] at h
      cases hps : pieces isBlank cs with
      | nil => exact absurd hps (pieces_ne_nil isBlank cs)
      | cons q qs => simp [hps] at h

/-! ## Where a word ends -/

/-- A word that stands in front of these characters ends there. -/
def EndsWord (cs : List Char) : Prop := ∀ c ∈ cs.head?, isBlank c

theorem endsWord_nil : EndsWord [] := nofun

theorem endsWord_space (cs : List Char) : EndsWord (' ' :: cs) := by
  rintro _ ⟨⟩
  rfl

theorem takeWhile_append_of_endsWord {w cs : List Char} (hw : ∀ c ∈ w, isBlank c = false)
    (hcs : EndsWord cs) : (w ++ cs).takeWhile (!isBlank ·) = w := by
  rw [List.takeWhile_append_of_pos fun c hc => by simp [hw c hc]]
  cases cs with
  | nil => simp
  | cons c cs =>
    have hc : isBlank c := hcs c rfl
    simp [hc]

/-- **Two words that end are the same,** and so is what follows them, if the texts are. -/
theorem word_append_inj {w w' : String} {cs cs' : List Char} (hw : BlankFree w)
    (hw' : BlankFree w') (hcs : EndsWord cs) (hcs' : EndsWord cs')
    (h : w.toList ++ cs = w'.toList ++ cs') : w = w' ∧ cs = cs' := by
  have hword : w.toList = w'.toList := by
    rw [← takeWhile_append_of_endsWord hw hcs, h, takeWhile_append_of_endsWord hw' hcs']
  rw [hword] at h
  exact ⟨String.toList_inj.mp hword, List.append_cancel_left h⟩

end PolishCalc.Text
