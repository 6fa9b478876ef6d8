import PolishCalc.Lowering
import PolishCalc.Proofs.ReadTokens

/-! # Programs that are put together

A program can be read and lowered in parts.  What a reader awaits does not depend on the statements
that it has read: a token is accepted or refused for what is awaited, and statements are only ever
added (`Reader.feed_after`).  So tokens after an accepted program, which leave the reader where it
began, are read as if there were nothing before them, and so is their fault.

The code of a program is the code of its statements, one after the other, and a blank ends every
word of a text, so that both parts of the statement carry over to what is compiled and to source
text.
-/
namespace PolishCalc

namespace Reader

/-- The reader, had it read the program `p` before. -/
def after (p : Program) (r : Reader) : Reader := ⟨r.done ++ p.reverse, r.awaited⟩

theorem deliver_after (p done : Program) (goal : Goal) (e : Expr) (frames : List Frame) :
    deliver (done ++ p.reverse) goal e frames = (deliver done goal e frames).after p := by
  induction frames generalizing e with
  | nil => rfl
  | cons frame frames ih =>
    cases frame with
    | unary op => exact ih _
    | left op => rfl
    | right op l => exact ih _

/-- **What was read before has no influence on a token.** -/
theorem feed_after (p : Program) (r : Reader) (token : String) :
    (r.after p).feed token = (r.feed token).map (after p) := by
  obtain ⟨done, _ | _ | ⟨goal, frames⟩⟩ := r
  · show feedStatement (done ++ p.reverse) token = (feedStatement done token).map (after p)
    unfold feedStatement
    split
    · rfl
    · split <;> rfl
  · rfl
  · show feedValue (done ++ p.reverse) goal frames token =
      (feedValue done goal frames token).map (after p)
    unfold feedValue
    split
    · rfl
    · split
      · rfl
      · split
        · exact congrArg Except.ok (deliver_after p done goal _ frames)
        · rfl

theorem feedAll_after (p : Program) (r : Reader) (ts : List String) :
    (r.after p).feedAll ts = (r.feedAll ts).map (after p) := by
  induction ts generalizing r with
  | nil => rfl
  | cons token ts ih =>
    rw [feedAll_cons, feedAll_cons, feed_after]
    rcases r.feed token with f | next
    · rfl
    · exact ih next

theorem finish_after (p : Program) (r : Reader) : (r.after p).finish = r.finish.map (p ++ ·) := by
  obtain ⟨done, _ | _ | ⟨goal, frames⟩⟩ := r
  · show Except.ok (done ++ p.reverse).reverse = Except.ok (p ++ done.reverse)
    rw [List.reverse_append, List.reverse_reverse]
  · rfl
  · rfl

end Reader

namespace Program

/-- **Tokens after an accepted program are read on their own.** -/
theorem ofTokens_append {ts : List String} {p : Program} (h : ofTokens ts = .ok p)
    (us : List String) : ofTokens (ts ++ us) = (ofTokens us).map (p ++ ·) := by
  have hread : Reader.feedAll {} ts = .ok (Reader.after p {}) := ofTokens_eq_ok_iff.mp h
  show Reader.feedAll {} (ts ++ us) >>= Reader.finish =
    (Reader.feedAll {} us >>= Reader.finish).map (p ++ ·)
  rw [Reader.feedAll_append_of_ok hread, Reader.feedAll_after]
  rcases Reader.feedAll {} us with f | next
  · rfl
  · exact Reader.finish_after p next

/-- **A text after an accepted one is read on its own,** if there are blanks between them. -/
theorem ofSource_append {s w : String} {p : Program} (h : ofSource s = .ok p) (hne : w ≠ "")
    (hw : ∀ c ∈ w.toList, Text.isBlank c) (t : String) :
    ofSource (s ++ w ++ t) = (ofSource t).map (p ++ ·) := by
  rw [ofSource, Text.words_append_blanks hne hw]
  exact ofTokens_append h (Text.words t)

theorem compile_append (p q : Program) : compile (p ++ q) = compile p ++ compile q := by
  rw [compile, lower_append, Code.lines, List.map_append]
  rfl

end Program

open Program (ofTokens ofSource compile)

/-- **Reading and compiling are compositional.**  Behind tokens that are accepted, others are
accepted as they are on their own, with the statements of both in order, or refused with the same
fault; and so it is with texts that have any blanks between them.  What is compiled from two
programs in a row is what is compiled from the first and then from the second. -/
theorem reading_and_compiling_are_compositional :
    (∀ (ts us : List String) (p : Program), ofTokens ts = .ok p →
      ofTokens (ts ++ us) = (ofTokens us).map (p ++ ·)) ∧
    (∀ (s w t : String) (p : Program), ofSource s = .ok p →
      w ≠ "" → (∀ c ∈ w.toList, Text.isBlank c) →
      ofSource (s ++ w ++ t) = (ofSource t).map (p ++ ·)) ∧
    ∀ p q : Program, compile (p ++ q) = compile p ++ compile q :=
  ⟨fun _ us _ h => Program.ofTokens_append h us,
    fun _ _ t _ h hne hw => Program.ofSource_append h hne hw t, Program.compile_append⟩

/-- The value of an assignment ends in nested operators, and what follows is a print statement, or
an operator that lacks an operand. -/
theorem reading_and_compiling_are_compositional_at_a_seam :
    let p : Program := [.assign "x" (.binary .add (.const 1) (.unary .sqrt (.const 4)))]
    ofTokens (["=", "x", "+", "1", "$", "4"] ++ ["@", "x"]) = .ok (p ++ [.print (.var "x")]) ∧
    ofTokens (["=", "x", "+", "1", "$", "4"] ++ ["+", "2"]) = .error (.illegalAction "+") ∧
    ofSource ("= x + 1 $ 4" ++ "\t\u00A0\n" ++ "@ * x") = .error .prematureEnd := by
  intro p
  obtain ⟨htokens, hsource, -⟩ := reading_and_compiling_are_compositional
  have hfront : ofTokens ["=", "x", "+", "1", "$", "4"] = .ok p := by rfl
  have hsame : ofSource "= x + 1 $ 4" = .ok p := by rfl
  have hblank : ∀ c ∈ "\t\u00A0\n".toList, Text.isBlank c := List.all_eq_true.mp (by rfl)
  exact ⟨(htokens _ ["@", "x"] p hfront).trans rfl,
    (htokens _ ["+", "2"] p hfront).trans rfl,
    (hsource _ "\t\u00A0\n" "@ * x" p hsame (by decide) hblank).trans rfl⟩

end PolishCalc
