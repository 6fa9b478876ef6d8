/-! # Cutting a text at marked characters

`pieces p cs` cuts `cs` at every character that `p` marks and leaves the marked
characters out, so that `n` marks make `n + 1` pieces, empty ones included.  Both
ways of cutting a text, into words and into lines, start from here.
-/
namespace PolishCalc.Text

variable (p : Char → Bool)

/-- The pieces of `cs` between the characters that `p` marks. -/
def pieces (cs : List Char) : List (List Char) :=
  cs.foldr (fun c ps => if p c then [] :: ps else ps.modifyHead (c :: ·)) [[]]

@[simp] theorem pieces_nil : pieces p [] = [[]] := rfl

theorem pieces_cons (c : Char) (cs : List Char) :
    pieces p (c :: cs) =
      if p c then [] :: pieces p cs else (pieces p cs).modifyHead (c :: ·) := rfl

theorem pieces_cons_pos {c : Char} (h : p c) (cs : List Char) :
    pieces p (c :: cs) = [] :: pieces p cs := by
  rw [pieces_cons, if_pos h]

/-- An unmarked character joins the first piece. -/
theorem pieces_cons_neg {c : Char} (h : p c = false) (cs : List Char) :
    pieces p (c :: cs) = (pieces p cs).modifyHead (c :: ·) := by
  rw [pieces_cons, h]; rfl

theorem pieces_ne_nil (cs : List Char) : pieces p cs ≠ [] := by
  induction cs with
  | nil => simp
  | cons c cs ih => rw [pieces_cons]; split <;> simp [ih]

/-- **A text cut at one of its marks:** the pieces on both sides are cut on their own. -/
theorem pieces_append {b : Char} (hb : p b) (cs ds : List Char) :
    pieces p (cs ++ b :: ds) = pieces p cs ++ pieces p ds := by
  induction cs with
  | nil => exact pieces_cons_pos p hb ds
  | cons c cs ih =>
    cases hc : p c with
    | true => rw [List.cons_append, pieces_cons_pos p hc, pieces_cons_pos p hc, ih]; rfl
    | false =>
      rw [List.cons_append, pieces_cons_neg p hc, pieces_cons_neg p hc, ih]
      obtain ⟨q, qs, hqs⟩ := List.exists_cons_of_ne_nil (pieces_ne_nil p cs)
      rw [hqs]
      rfl

/-- A text without a mark is one piece. -/
theorem pieces_of_unmarked {w : List Char} (hw : ∀ c ∈ w, p c = false) : pieces p w = [w] := by
  induction w with
  | nil => rfl
  | cons c w ih =>
    rw [pieces_cons_neg p (hw c List.mem_cons_self),
      ih fun d hd => hw d (List.mem_cons_of_mem c hd), List.modifyHead_cons]

/-- A text cut at its first mark. -/
theorem pieces_append_mark {w : List Char} (hw : ∀ c ∈ w, p c = false) {b : Char} (hb : p b)
    (cs : List Char) : pieces p (w ++ b :: cs) = w :: pieces p cs := by
  rw [pieces_append p hb, pieces_of_unmarked p hw, List.singleton_append]

/-- No piece contains a mark. -/
theorem unmarked_of_mem_pieces {cs w : List Char} (hw : w ∈ pieces p cs) :
    ∀ c ∈ w, p c = false := by
  induction cs generalizing w with
  | nil => rw [pieces_nil, List.mem_singleton] at hw; simp [hw]
  | cons c cs ih =>
    cases hc : p c with
    | true =>
      rw [pieces_cons_pos p hc, List.mem_cons] at hw
      rcases hw with rfl | hw
      · simp
      · exact ih hw
    | false =>
      rw [pieces_cons_neg p hc] at hw
      cases hps : pieces p cs with
      | nil => exact absurd hps (pieces_ne_nil p cs)
      | cons q qs =>
        rw [hps, List.modifyHead_cons, List.mem_cons] at hw
        rw [hps] at ih
        rcases hw with rfl | hw
        · intro d hd
          rcases List.mem_cons.mp hd with rfl | hd
          · exact hc
          · exact ih List.mem_cons_self d hd
        · exact ih (List.mem_cons_of_mem q hw)

/-- A piece has the characters of the text. -/
theorem mem_of_mem_pieces {cs w : List Char} (hw : w ∈ pieces p cs) {c : Char} (hc : c ∈ w) :
    c ∈ cs := by
  induction cs generalizing w with
  | nil =>
    rw [pieces_nil, List.mem_singleton] at hw
    rwa [hw] at hc
  | cons d cs ih =>
    cases hd : p d with
    | true =>
      rw [pieces_cons_pos p hd, List.mem_cons] at hw
      rcases hw with rfl | hw
      · cases hc
      · exact List.mem_cons_of_mem d (ih hw hc)
    | false =>
      obtain ⟨q, qs, hqs⟩ := List.exists_cons_of_ne_nil (pieces_ne_nil p cs)
      rw [pieces_cons_neg p hd, hqs, List.modifyHead_cons, List.mem_cons] at hw
      rw [hqs] at ih
      rcases hw with rfl | hw
      · exact List.mem_cons.mpr ((List.mem_cons.mp hc).imp_right (ih List.mem_cons_self))
      · exact List.mem_cons_of_mem d (ih (List.mem_cons_of_mem q hw) hc)

end PolishCalc.Text
