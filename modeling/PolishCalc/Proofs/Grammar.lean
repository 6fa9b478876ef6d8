import Mathlib.Logic.ExistsUnique
import PolishCalc.Proofs.Acceptance
import PolishCalc.Proofs.Descent

/-! # The reader accepts the grammar

The grammar of `PolishCalc.Spelling` has no brackets and no separators, and the
reader no lookahead, yet nothing is lost: the tokens that are accepted as a program
are exactly those that spell it.  That every spelling is accepted is
`Program.ofTokens_of_spells`; that nothing else is follows from
`Program.spells_of_ofTokens`, which recovers the spelling from the reader's state.
Because reading is a function, a sequence of tokens spells at most one program.
Whether the tokens are fed to the reader or taken by descent makes no difference
to any of this (`Program.descend_eq_ofTokens`).

In the other direction a program leaves little freedom to its spelling.  A number
may be written with a plus sign or with zeros in front; everything else is fixed,
the name that an assignment binds included, even when that name looks like a
number.  `Respelled` is this freedom, and it is all of it.
-/
namespace PolishCalc

/-- The tokens `us` after `front` are the tokens `ts`, but for the way in which
integer literals are written.  A token in the place of a name is no literal. -/
inductive Respelled : List String → List String → List String → Prop
  | nil {front : List String} : Respelled front [] []
  | same {front ts us : List String} (t : String) (rest : Respelled (front ++ [t]) ts us) :
      Respelled front (t :: ts) (t :: us)
  | literal {front ts us : List String} {t u : String} {v : Int32}
      (place : ¬ Program.NameDue front) (writes : Numeral.Denotes t v.toInt)
      (writes' : Numeral.Denotes u v.toInt) (rest : Respelled (front ++ [t]) ts us) :
      Respelled front (t :: ts) (u :: us)

namespace Respelled

theorem refl (front ts : List String) : Respelled front ts ts := by
  induction ts generalizing front with
  | nil => exact .nil
  | cons t ts ih => exact .same t (ih _)

/-- Respelling one part of the tokens after the other. -/
theorem append {front ts us ts' us' : List String} (h : Respelled front ts us)
    (h' : Respelled (front ++ ts) ts' us') : Respelled front (ts ++ ts') (us ++ us') := by
  induction h with
  | nil => rwa [List.append_nil] at h'
  | @same front ts us t _ ih =>
    refine .same t (ih ?_)
    rwa [List.append_assoc]
  | @literal front ts us t u v place writes writes' _ ih =>
    refine .literal place writes writes' (ih ?_)
    rwa [List.append_assoc]

end Respelled

/-! ## Two spellings of one program -/

/-- Two spellings of a value, read where the reader awaits one. -/
theorem Expr.Spells.respelled {e : Expr} {ts us : List String} (h : e.Spells ts)
    (h' : e.Spells us) {front : List String} {done : Program} {goal : Goal} {frames : List Frame}
    (hr : Reader.feedAll {} front = .ok ⟨done, .value goal frames⟩) : Respelled front ts us := by
  induction h generalizing us front frames with
  | const writes =>
    cases h' with
    | const writes' =>
      refine .literal ?_ writes writes' .nil
      intro hname
      obtain ⟨done', hd⟩ := Program.nameDue_iff.mp hname
      rw [hr] at hd
      cases hd
  | var letter =>
    cases h'
    exact .refl _ _
  | @unary op e ts _ ih =>
    cases h' with
    | unary op operand' =>
      have hsymbol : Reader.feedAll {} (front ++ [op.symbol]) =
          .ok ⟨done, .value goal (.unary op :: frames)⟩ := by
        rw [Reader.feedAll_append_of_ok hr, Reader.feedAll_cons, Reader.feed_value,
          Reader.feedValue_unarySymbol]
        rfl
      exact .same _ (ih operand' hsymbol)
  | @binary op l r ls rs left right ihl ihr =>
    cases h' with
    | @binary op l r ls' rs' left' right' =>
      have hsymbol : Reader.feedAll {} (front ++ [op.symbol]) =
          .ok ⟨done, .value goal (.left op :: frames)⟩ := by
        rw [Reader.feedAll_append_of_ok hr, Reader.feedAll_cons, Reader.feed_value,
          Reader.feedValue_binarySymbol]
        rfl
      -- After the left operand the reader awaits the right one, wherever the spelling ended.
      have hleft : Reader.feedAll {} (front ++ [op.symbol] ++ ls) =
          .ok ⟨done, .value goal (.right op l :: frames)⟩ := by
        rw [Reader.feedAll_append_of_ok hsymbol]
        exact Reader.feedAll_of_spells left done goal (.left op :: frames)
      exact .same _ ((ihl left' hsymbol).append (ihr right' hleft))

theorem Statement.Spells.respelled {a : Statement} {ts us : List String} (h : a.Spells ts)
    (h' : a.Spells us) {front : List String} {done : Program}
    (hr : Reader.feedAll {} front = .ok ⟨done, .statement⟩) : Respelled front ts us := by
  cases h with
  | assign name value =>
    cases h' with
    | assign name value' =>
      have hname : Reader.feedAll {} (front ++ [assignToken] ++ [name]) =
          .ok ⟨done, .value (.assign name) []⟩ := by
        rw [List.append_assoc, Reader.feedAll_append_of_ok hr]
        rfl
      exact .same _ (.same _ (value.respelled value' hname))
  | print value =>
    cases h' with
    | print value' =>
      have hprint : Reader.feedAll {} (front ++ [printToken]) = .ok ⟨done, .value .print []⟩ := by
        rw [Reader.feedAll_append_of_ok hr]
        rfl
      exact .same _ (value.respelled value' hprint)

/-- Two spellings of one program, read from between two statements on. -/
theorem Program.Spells.respelled {p : Program} {ts us : List String} (h : p.Spells ts)
    (h' : p.Spells us) {front : List String} {done : Program}
    (hr : Reader.feedAll {} front = .ok ⟨done, .statement⟩) : Respelled front ts us := by
  induction h generalizing us front done with
  | nil =>
    cases h'
    exact .nil
  | @cons a p ts vs first _ ih =>
    cases h' with
    | @cons a p us ws first' rest' =>
      have hfirst : Reader.feedAll {} (front ++ ts) = .ok ⟨a :: done, .statement⟩ := by
        rw [Reader.feedAll_append_of_ok hr]
        exact Reader.feedAll_of_statement_spells first done
      exact (first.respelled first' hr).append (ih rest' hfirst)

/-! ## Respelled tokens are read alike -/

/-- A token that writes a number starts no statement. -/
theorem Reader.not_feedStatement_of_denotes {t : String} {i : Int} (h : Numeral.Denotes t i)
    (done : Program) (r : Reader) : feedStatement done t ≠ .ok r := by
  have hinteger := Numeral.integer?_eq_some_iff.mpr h
  intro hr
  unfold feedStatement at hr
  split at hr
  · rename_i heq
    subst heq
    cases hinteger
  · split at hr
    · rename_i heq
      subst heq
      cases hinteger
    · cases hr

/-- Where no name is due, two literals for one number have the same effect. -/
theorem Reader.feed_of_denotes {r next : Reader} (hname : r.awaited ≠ .name) {t u : String}
    {v : Int32} (writes : Numeral.Denotes t v.toInt) (writes' : Numeral.Denotes u v.toInt)
    (h : r.feed t = .ok next) : r.feed u = .ok next := by
  obtain ⟨done, awaited⟩ := r
  cases awaited with
  | statement => exact absurd h (not_feedStatement_of_denotes writes done next)
  | name => exact absurd rfl hname
  | value goal frames =>
    rw [feed_value, feedValue_of_ofToken? (Expr.ofToken?_of_denotes writes)] at h
    rw [feed_value, feedValue_of_ofToken? (Expr.ofToken?_of_denotes writes')]
    exact h

/-- **Respelling literals changes nothing** for a reader that accepts the tokens. -/
theorem Respelled.feedAll {front ts us : List String} (h : Respelled front ts us)
    {r r' : Reader} (hr : Reader.feedAll {} front = .ok r) (hts : r.feedAll ts = .ok r') :
    r.feedAll us = .ok r' := by
  induction h generalizing r with
  | nil => exact hts
  | @same front ts us t _ ih =>
    rw [Reader.feedAll_cons] at hts ⊢
    obtain ⟨next, hnext, hts⟩ := bind_eq_ok_iff.mp hts
    rw [hnext]
    refine ih ?_ hts
    rw [Reader.feedAll_append_of_ok hr, Reader.feedAll_cons, hnext]
    rfl
  | @literal front ts us t u v place writes writes' _ ih =>
    rw [Reader.feedAll_cons] at hts ⊢
    obtain ⟨next, hnext, hts⟩ := bind_eq_ok_iff.mp hts
    have hname : r.awaited ≠ .name := by
      intro hn
      refine place (Program.nameDue_iff.mpr ⟨r.done, ?_⟩)
      rw [← hn]
      exact hr
    rw [Reader.feed_of_denotes hname writes writes' hnext]
    refine ih ?_ hts
    rw [Reader.feedAll_append_of_ok hr, Reader.feedAll_cons, hnext]
    rfl

/-! ## The grammar -/

/-- Reading is a function, so tokens spell at most one program. -/
theorem Program.Spells.unique {p q : Program} {ts : List String} (hp : p.Spells ts)
    (hq : q.Spells ts) : p = q :=
  Except.ok.inj ((ofTokens_of_spells hp).symm.trans (ofTokens_of_spells hq))

/-- **The accepted tokens are the spellings of programs,** read by descent or one at a
time.  Tokens that are accepted spell exactly one program, and they are accepted as that
one; other tokens spell the same program just if they differ from these in the writing of
literals only. -/
theorem accepted_tokens_are_spellings (ts : List String) (p : Program) :
    Program.descend ts = Program.ofTokens ts ∧
    (Program.ofTokens ts = .ok p ↔ p.Spells ts) ∧
    (Program.Accepted ts → ∃! q : Program, q.Spells ts) ∧
    (Program.ofTokens ts = .ok p →
      ∀ us, Program.ofTokens us = .ok p ↔ Respelled [] ts us) := by
  refine ⟨Program.descend_eq_ofTokens ts,
    ⟨Program.spells_of_ofTokens, Program.ofTokens_of_spells⟩, ?_, ?_⟩
  · rintro ⟨q, hq⟩
    have hspells := Program.spells_of_ofTokens hq
    exact ⟨q, hspells, fun _ hother => hother.unique hspells⟩
  · intro hts us
    have hstart : Reader.feedAll {} [] = .ok ⟨[], .statement⟩ := rfl
    constructor
    · intro hus
      exact (Program.spells_of_ofTokens hts).respelled (Program.spells_of_ofTokens hus) hstart
    · intro hrespelled
      exact Program.ofTokens_eq_ok_iff.mpr
        (hrespelled.feedAll hstart (Program.ofTokens_eq_ok_iff.mp hts))

/-- A literal may be respelled, also beside a name that looks like one. -/
theorem accepted_tokens_are_spellings_of_difference :
    let p : Program := [.assign "007" (.binary .sub (.const 7) (.var "x"))]
    let ts := ["=", "007", "-", "007", "x"]
    let us := ["=", "007", "-", "+7", "x"]
    Program.ofTokens ts = .ok p ∧ Program.descend ts = .ok p ∧ p.Spells ts ∧
      (∃! q : Program, q.Spells ts) ∧ Program.ofTokens us = .ok p ∧ Respelled [] ts us := by
  intro p ts us
  have hts : Program.ofTokens ts = .ok p := by rfl
  have hus : Program.ofTokens us = .ok p := by rfl
  obtain ⟨hdescent, hspells, hunique, hsame⟩ := accepted_tokens_are_spellings ts p
  exact ⟨hts, hdescent.trans hts, hspells.mp hts, hunique ⟨p, hts⟩, hus, (hsame hts us).mp hus⟩

end PolishCalc
