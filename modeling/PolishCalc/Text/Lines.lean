import PolishCalc.Text.Words

/-! # Lines

A line ends at a line feed, and one carriage return directly before that line
feed belongs to the line's end.  What follows the last line feed is a line of
its own if there is anything, kept as it is: a carriage return at the very end
of the text ends no line.

Every text of several lines that the calculator writes, a listing, a report or a
row of values, is made by `joinLines`, which ends each line with a line feed.
-/
namespace PolishCalc.Text

/-- The character that ends a line. -/
def isLineFeed (c : Char) : Bool := c == '\n'

/-- The text of a line that was ended by a line feed. -/
def dropReturn (line : List Char) : List Char :=
  if line.getLast? = some '\r' then line.dropLast else line

/-- The lines of the pieces that line feeds leave: all but the last were ended
by a line feed, and the last is a line unless it is empty. -/
def linesOfPieces (ps : List (List Char)) : List (List Char) :=
  ps.dropLast.map dropReturn ++ ps.getLast?.toList.filter (!·.isEmpty)

/-- The lines among characters. -/
def linesOf (cs : List Char) : List String :=
  (linesOfPieces (pieces isLineFeed cs)).map String.ofList

/-- The lines of a text, in order. -/
def lines (s : String) : List String := linesOf s.toList

@[simp] theorem linesOf_nil : linesOf [] = [] := rfl

theorem linesOfPieces_cons (line : List Char) {ps : List (List Char)} (h : ps ≠ []) :
    linesOfPieces (line :: ps) = dropReturn line :: linesOfPieces ps := by
  rw [linesOfPieces, List.dropLast_cons_of_ne_nil h, List.map_cons, linesOfPieces,
    List.getLast?_cons, List.getLast?_eq_some_getLast h, List.cons_append]
  rfl

/-- The first line of a text is what stands before its first line feed. -/
theorem linesOf_append_lineFeed {line : List Char} (h : ∀ c ∈ line, isLineFeed c = false)
    (cs : List Char) :
    linesOf (line ++ '\n' :: cs) = String.ofList (dropReturn line) :: linesOf cs := by
  rw [linesOf, pieces_append_mark isLineFeed h rfl,
    linesOfPieces_cons line (pieces_ne_nil isLineFeed cs), List.map_cons, linesOf]

/-! ## Writing lines -/

/-- A text of lines, each ended by a line feed. -/
def joinLines (ls : List String) : String :=
  ls.foldl (fun text line => text ++ line ++ "\n") ""

theorem foldl_lines (ls : List String) (front : String) :
    ls.foldl (fun text line => text ++ line ++ "\n") front = front ++ joinLines ls := by
  induction ls generalizing front with
  | nil => simp [joinLines]
  | cons line rest ih =>
    rw [joinLines, List.foldl_cons, List.foldl_cons, ih, ih ("" ++ line ++ "\n")]
    simp [String.append_assoc]

@[simp] theorem joinLines_nil : joinLines [] = "" := rfl

@[simp] theorem joinLines_cons (line : String) (rest : List String) :
    joinLines (line :: rest) = line ++ "\n" ++ joinLines rest := by
  rw [joinLines, List.foldl_cons, foldl_lines, String.empty_append]

/-- The line feed stands behind the first line. -/
theorem toList_joinLines_cons (line : String) (rest : List String) :
    (joinLines (line :: rest)).toList = line.toList ++ '\n' :: (joinLines rest).toList := by
  rw [joinLines_cons, String.toList_append, String.toList_append, List.append_assoc]
  rfl

/-- The pieces that the line feeds of written lines leave are these lines, and an empty one
behind the last line feed. -/
theorem pieces_joinLines {ls : List String}
    (h : ∀ line ∈ ls, ∀ c ∈ line.toList, isLineFeed c = false) :
    pieces isLineFeed (joinLines ls).toList = ls.map String.toList ++ [[]] := by
  induction ls with
  | nil => rfl
  | cons line rest ih =>
    obtain ⟨hline, hrest⟩ := List.forall_mem_cons.mp h
    rw [toList_joinLines_cons, pieces_append_mark isLineFeed hline rfl, ih hrest, List.map_cons,
      List.cons_append]

/-- **Lines without line feeds are known by the text that they make.** -/
theorem joinLines_inj {ls ls' : List String}
    (h : ∀ line ∈ ls, ∀ c ∈ line.toList, isLineFeed c = false)
    (h' : ∀ line ∈ ls', ∀ c ∈ line.toList, isLineFeed c = false)
    (htext : joinLines ls = joinLines ls') : ls = ls' := by
  have hpieces := pieces_joinLines h
  rw [htext, pieces_joinLines h'] at hpieces
  have hlines : ls'.map String.toList = ls.map String.toList := List.append_cancel_right hpieces
  exact (List.map_inj_right fun _ _ => String.toList_inj.mp).mp hlines.symm

/-- A line that a line feed can end without changing it. -/
def IsLine (line : String) : Prop :=
  (∀ c ∈ line.toList, isLineFeed c = false) ∧ line.toList.getLast? ≠ some '\r'

/-- **Lines that are written are read back.** -/
theorem lines_joinLines {ls : List String} (h : ∀ line ∈ ls, IsLine line) :
    lines (joinLines ls) = ls := by
  induction ls with
  | nil => rfl
  | cons line rest ih =>
    obtain ⟨unmarked, noReturn⟩ := h line List.mem_cons_self
    rw [lines, toList_joinLines_cons, linesOf_append_lineFeed unmarked, dropReturn,
      if_neg noReturn, String.ofList_toList, ← lines,
      ih fun l hl => h l (List.mem_cons_of_mem line hl)]

/-! ## Lines that end in a word -/

theorem isLineFeed_of_isBlank {c : Char} (h : isBlank c = false) : isLineFeed c = false := by
  cases hfeed : isLineFeed c with
  | false => rfl
  | true =>
    have hc : c = '\n' := by simpa [isLineFeed] using hfeed
    subst hc
    cases h

theorem IsWord.isLineFeed {w : String} (hw : IsWord w) :
    ∀ c ∈ w.toList, isLineFeed c = false :=
  fun c hc => isLineFeed_of_isBlank (hw.2 c hc)

/-- A word can end a line: it holds no line feed, and its last character is no carriage
return. -/
theorem isLine_append_word {front w : String}
    (unmarked : ∀ c ∈ front.toList, isLineFeed c = false) (hw : IsWord w) :
    IsLine (front ++ w) := by
  have hne : w.toList ≠ [] := by simpa using hw.1
  rw [IsLine, String.toList_append]
  refine ⟨?_, ?_⟩
  · intro c hc
    rcases List.mem_append.mp hc with hc | hc
    · exact unmarked c hc
    · exact hw.isLineFeed c hc
  · -- The word is not empty, so the last character of the line is one of its own.
    rw [List.getLast?_append, List.getLast?_eq_some_getLast hne, Option.some_or]
    intro hreturn
    have hblank := hw.2 _ (List.getLast_mem hne)
    rw [Option.some.inj hreturn] at hblank
    exact absurd hblank (by decide)

theorem IsWord.isLine {w : String} (hw : IsWord w) : IsLine w := by
  rw [← String.empty_append (s := w)]
  exact isLine_append_word (by simp) hw

end PolishCalc.Text
