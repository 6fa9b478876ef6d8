import PolishCalc.Text.Lines
import PolishCalc.Text.Trimming

/-! # What lines hold

Instruction text may be indented, have blank lines in it, and end its lines in one of two ways.
`contents` is what is left of lines when all this is taken away: the lines that are not blank,
without the blanks around them.

For the contents of a text it does not matter that a carriage return in front of a line feed belongs
to the line's end and one at the end of the text does not, since a carriage return is a blank
anyway.  So the contents are those of the pieces between the line feeds
(`contents_lines`), and a line feed in the middle of a text divides its contents
(`contents_lines_append`).
-/
namespace PolishCalc.Text

/-- There is nothing but blanks on the line. -/
def isBlankLine (line : String) : Bool := line.toList.all isBlank

/-- The lines that are not blank, without the blanks around them. -/
def contents (ls : List String) : List String := (ls.map trim).filter (· ≠ "")

/-- A text is empty, or its last line is ended by a line feed. -/
def EndsLine (text : String) : Prop := text = "" ∨ ∃ s, text = s ++ "\n"

/-- Characters with a carriage return put in front of every line feed. -/
def insertReturns (cs : List Char) : List Char :=
  cs.flatMap fun c => if isLineFeed c then ['\r', c] else [c]

/-- The text with a carriage return in front of every line feed. -/
def withReturns (text : String) : String := String.ofList (insertReturns text.toList)

theorem isBlankLine_iff {line : String} : isBlankLine line ↔ ∀ c ∈ line.toList, isBlank c :=
  List.all_eq_true

theorem contents_cons (line : String) (rest : List String) :
    contents (line :: rest) =
      if isBlankLine line then contents rest else trim line :: contents rest := by
  rw [contents, List.map_cons, List.filter_cons, contents]
  by_cases h : isBlankLine line
  · simp [h, trim_eq_empty_iff.mpr (isBlankLine_iff.mp h)]
  · simp [h, mt trim_eq_empty_iff.mp (mt isBlankLine_iff.mpr h)]

theorem contents_append (ls ls' : List String) :
    contents (ls ++ ls') = contents ls ++ contents ls' := by
  rw [contents, List.map_append, List.filter_append, contents, contents]

/-- A line holds the same with a carriage return behind it. -/
theorem contents_cons_append_return (line : List Char) (rest : List String) :
    contents (String.ofList (line ++ ['\r']) :: rest) = contents (String.ofList line :: rest) := by
  have hreturn : ∀ c ∈ (String.ofList ['\r']).toList, isBlank c := by
    rw [String.toList_ofList, List.forall_mem_singleton]
    rfl
  rw [String.ofList_append, contents, List.map_cons, trim_append_blanks _ hreturn, contents,
    List.map_cons]

/-- **Blank lines hold nothing.** -/
theorem contents_filter (ls : List String) :
    contents (ls.filter (!isBlankLine ·)) = contents ls := by
  induction ls with
  | nil => rfl
  | cons line rest ih =>
    by_cases h : isBlankLine line
    · rw [List.filter_cons_of_neg (by simp [h]), contents_cons, if_pos h, ih]
    · rw [List.filter_cons_of_pos (by simp [h]), contents_cons, contents_cons, if_neg h,
        if_neg h, ih]

theorem contents_of_blank {ls : List String} (h : ∀ line ∈ ls, isBlankLine line) :
    contents ls = [] := by
  rw [← contents_filter, List.filter_eq_nil_iff.mpr fun line hl => by simp [h line hl]]
  rfl

/-! ## The contents of a text -/

/-- What the pieces between the line feeds of a text hold. -/
def contentsOf (cs : List Char) : List String :=
  contents ((pieces isLineFeed cs).map String.ofList)

/-- A line that has lost its carriage return holds the same. -/
theorem contents_cons_dropReturn (line : List Char) (rest : List String) :
    contents (String.ofList (dropReturn line) :: rest) = contents (String.ofList line :: rest) := by
  rw [dropReturn]
  split
  · rename_i hreturn
    obtain ⟨front, rfl⟩ := List.getLast?_eq_some_iff.mp hreturn
    rw [List.dropLast_concat, contents_cons_append_return]
  · rfl

/-- **The lines of a text hold what the pieces between its line feeds hold.** -/
theorem contents_lines (text : String) : contents (lines text) = contentsOf text.toList := by
  rw [lines, linesOf, contentsOf]
  have hpieces := pieces_ne_nil isLineFeed text.toList
  generalize pieces isLineFeed text.toList = ps at hpieces
  induction ps with
  | nil => rfl
  | cons line ps ih =>
    cases ps with
    | nil =>
      -- The last piece is no line if it is empty, and then it holds nothing.
      cases line <;> rfl
    | cons next ps =>
      rw [linesOfPieces_cons line (List.cons_ne_nil next ps), List.map_cons,
        contents_cons_dropReturn, List.map_cons, contents_cons, contents_cons,
        ih (List.cons_ne_nil next ps)]

/-- A line feed divides the contents of a text. -/
theorem contentsOf_append (cs ds : List Char) :
    contentsOf (cs ++ '\n' :: ds) = contentsOf cs ++ contentsOf ds := by
  rw [contentsOf, pieces_append isLineFeed rfl, List.map_append, contents_append, contentsOf,
    contentsOf]

theorem contents_lines_append (s t : String) :
    contents (lines (s ++ "\n" ++ t)) = contents (lines s) ++ contents (lines t) := by
  rw [contents_lines, contents_lines, contents_lines, ← contentsOf_append, String.toList_append,
    String.toList_append, List.append_assoc]
  rfl

/-- A blank text holds nothing, whether it is one line or many. -/
theorem contents_lines_of_blank {w : String} (hw : ∀ c ∈ w.toList, isBlank c) :
    contents (lines w) = [] := by
  rw [contents_lines]
  refine contents_of_blank fun line hline => ?_
  obtain ⟨piece, hpiece, rfl⟩ := List.mem_map.mp hline
  rw [isBlankLine_iff, String.toList_ofList]
  exact fun c hc => hw c (mem_of_mem_pieces isLineFeed hpiece hc)

/-- Blank lines can be put in wherever a line starts. -/
theorem contents_lines_insert {front gap : String} (hfront : EndsLine front)
    (hgap : ∀ c ∈ gap.toList, isBlank c) (back : String) :
    contents (lines (front ++ gap ++ "\n" ++ back)) = contents (lines (front ++ back)) := by
  rcases hfront with rfl | ⟨s, rfl⟩
  · rw [String.empty_append, String.empty_append, contents_lines_append,
      contents_lines_of_blank hgap, List.nil_append]
  · rw [contents_lines_append, contents_lines_append, contents_lines_of_blank hgap,
      List.append_nil, contents_lines_append]

/-- A text without line feeds is one piece, and holds the same with a carriage return behind. -/
theorem contentsOf_append_return {cs : List Char} (hcs : ∀ c ∈ cs, isLineFeed c = false) :
    contentsOf (cs ++ ['\r']) = contentsOf cs := by
  have hboth : ∀ c ∈ cs ++ ['\r'], isLineFeed c = false :=
    List.forall_mem_append.mpr ⟨hcs, List.forall_mem_singleton.mpr rfl⟩
  rw [contentsOf, pieces_of_unmarked isLineFeed hboth, contentsOf,
    pieces_of_unmarked isLineFeed hcs, List.map_singleton, List.map_singleton,
    contents_cons_append_return]

/-- Characters behind the start of a line hold the same with the returns. -/
theorem contentsOf_append_insertReturns (cs front : List Char)
    (hfront : ∀ c ∈ front, isLineFeed c = false) :
    contentsOf (front ++ insertReturns cs) = contentsOf (front ++ cs) := by
  induction cs generalizing front with
  | nil => rfl
  | cons c cs ih =>
    cases hc : isLineFeed c with
    | true =>
      -- The return ends the line that was started, and the next one starts with nothing.
      obtain rfl : c = '\n' := by simpa [isLineFeed] using hc
      have hreturn : front ++ insertReturns ('\n' :: cs) =
          (front ++ ['\r']) ++ '\n' :: insertReturns cs := by
        rw [List.append_assoc]
        rfl
      rw [hreturn, contentsOf_append, contentsOf_append_return hfront, contentsOf_append]
      exact congrArg (contentsOf front ++ ·) (ih [] fun _ hd => absurd hd List.not_mem_nil)
    | false =>
      have hkept : insertReturns (c :: cs) = c :: insertReturns cs := by
        rw [insertReturns, List.flatMap_cons, hc]
        rfl
      have hlonger : ∀ d ∈ front ++ [c], isLineFeed d = false :=
        List.forall_mem_append.mpr ⟨hfront, List.forall_mem_singleton.mpr hc⟩
      have hline := ih (front ++ [c]) hlonger
      rw [List.append_assoc, List.append_assoc] at hline
      rw [hkept]
      exact hline

/-- **Carriage returns in front of line feeds change nothing** of what the lines hold. -/
theorem contents_lines_withReturns (text : String) :
    contents (lines (withReturns text)) = contents (lines text) := by
  rw [contents_lines, contents_lines, withReturns, String.toList_ofList]
  exact contentsOf_append_insertReturns text.toList [] nofun

end PolishCalc.Text
