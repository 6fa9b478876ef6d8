import Mathlib.Logic.ExistsUnique
import PolishCalc.Proofs.ReadTokens

/-! # Infix text determines its program

Infix text quotes nothing: a unary operator stands directly before its operand, a minus sign
can belong to a number or be an operator, and the name that an assignment binds may look
like a number, an operator or the start of a print statement.  It can be read back all the
same, from left to right.  The first character of an expression says which of its four
forms it has (`Expr.form?_head`), because a variable starts with a letter.  A number or a
variable ends at the next blank, and every operator between two operands has blanks
around it.  So an expression is known by its text even if something follows, as long as
that starts with a blank (`Expr.render_append_inj`).

Of statements the first word is a name or `Print`, and the second tells the two apart, for
no expression starts with `=`.  Statements hold no line feed, so the lines of a program are
its statements.
-/
namespace PolishCalc

open Text (IsWord isBlank isLineFeed EndsWord)

/-! ## The form of an expression -/

/-- The four forms of expressions. -/
inductive Form where
  | number
  | name
  | unary
  | binary
deriving DecidableEq, Repr

/-- The form of the expressions whose infix text starts with a character. -/
def Form.ofHead? (c : Char) : Option Form :=
  if c.isAlpha then some name
  else if c.isDigit || c == '+' || c == '-' then some number
  else if c == '(' then some binary
  else if c == '!' || c == '$' then some unary
  else none

namespace Expr

def form : Expr → Form
  | const _ => .number
  | var _ => .name
  | unary _ _ => .unary
  | binary _ _ _ => .binary

/-- The names of an expression can be told apart in infix text. -/
def Legible (e : Expr) : Prop := ∀ name ∈ e.names, IsWord name ∧ startsWithLetter name

end Expr

/-- A text that writes a number starts with a digit or a sign. -/
theorem Numeral.Denotes.form?_head {s : String} {i : Int} (h : Numeral.Denotes s i) :
    s.toList.head?.bind Form.ofHead? = some .number := by
  obtain ⟨ds, hne, hds, h⟩ := h
  obtain ⟨d, ds, rfl⟩ := List.exists_cons_of_ne_nil hne
  have hd := hds d List.mem_cons_self
  rcases h with ⟨h, -⟩ | ⟨h, -⟩ | ⟨h, -⟩ <;> rw [h, List.head?_cons, Option.bind_some, Form.ofHead?]
  · rw [if_neg (by simp [Text.isAlpha_of_isDigit hd]), if_pos (by simp [hd])]
  · rfl
  · rfl

namespace Expr

theorem toList_render_binary (op : BinaryOp) (l r : Expr) :
    (binary op l r).render.toList =
      '(' :: ' ' :: (l.render.toList ++
        ' ' :: (op.symbol.toList ++ ' ' :: (r.render.toList ++ [' ', ')']))) := by
  rw [render_binary]
  simp [String.toList_append]

/-- **The first character of an expression's text gives its form.** -/
theorem form?_head {e : Expr} (h : e.Legible) :
    e.render.toList.head?.bind Form.ofHead? = some e.form := by
  cases e with
  | const v =>
    rw [render_const]
    exact (Numeral.denotes_text v).form?_head
  | var name =>
    obtain ⟨-, hletter⟩ := h name (List.mem_singleton_self name)
    obtain ⟨c, hc, halpha⟩ : ∃ c ∈ name.toList.head?, c.isAlpha := by
      simpa [startsWithLetter, Option.any_eq_true] using hletter
    rw [render_var, Option.mem_def.mp hc, Option.bind_some, Form.ofHead?, if_pos halpha]
    rfl
  | unary op e =>
    rw [render_unary, String.toList_append, List.head?_append]
    cases op <;> rfl
  | binary op l r =>
    rw [toList_render_binary]
    rfl

/-- Texts of one beginning are texts of one form. -/
theorem form_eq_of_append {e e' : Expr} (h : e.Legible) (h' : e'.Legible) {cs cs' : List Char}
    (htext : e.render.toList ++ cs = e'.render.toList ++ cs') : e.form = e'.form := by
  have hhead {d : Expr} (hd : d.Legible) (ds : List Char) :
      (d.render.toList ++ ds).head?.bind Form.ofHead? = some d.form := by
    have hform := form?_head hd
    rw [List.head?_append]
    cases hc : d.render.toList.head? with
    | none =>
      rw [hc] at hform
      cases hform
    | some c => rwa [hc] at hform
  have hforms := hhead h cs
  rw [htext, hhead h' cs'] at hforms
  exact (Option.some.inj hforms).symm

end Expr

/-! ## Operators between blanks -/

theorem UnaryOp.isWord_symbol (op : UnaryOp) : IsWord op.symbol := by cases op <;> decide

theorem BinaryOp.isWord_symbol (op : BinaryOp) : IsWord op.symbol := by cases op <;> decide

theorem UnaryOp.symbol_append_inj {op op' : UnaryOp} {cs cs' : List Char}
    (h : op.symbol.toList ++ cs = op'.symbol.toList ++ cs') : op = op' ∧ cs = cs' := by
  cases op <;> cases op' <;> simp_all [symbol]

theorem BinaryOp.symbol_append_inj {op op' : BinaryOp} {cs cs' : List Char}
    (h : op.symbol.toList ++ cs = op'.symbol.toList ++ cs') : op = op' ∧ cs = cs' := by
  cases op <;> cases op' <;> simp_all [symbol]

/-! ## Expressions -/

namespace Expr

/-- **An expression is known by its text,** and so is where the text ends, if what follows
does not go on with a word. -/
theorem render_append_inj {e e' : Expr} (he : e.Legible) (he' : e'.Legible) {cs cs' : List Char}
    (hcs : EndsWord cs) (hcs' : EndsWord cs')
    (h : e.render.toList ++ cs = e'.render.toList ++ cs') : e = e' ∧ cs = cs' := by
  induction e generalizing e' cs cs' with
  | const v =>
    have hform := form_eq_of_append he he' h
    cases e' with
    | const w =>
      rw [render_const, render_const] at h
      obtain ⟨htext, hrest⟩ := Text.word_append_inj (Numeral.isWord_text v).2
        (Numeral.isWord_text w).2 hcs hcs' h
      exact ⟨congrArg const (Numeral.text_injective htext), hrest⟩
    | var _ | unary _ _ | binary _ _ _ => cases hform
  | var name =>
    have hform := form_eq_of_append he he' h
    cases e' with
    | var name' =>
      rw [render_var, render_var] at h
      obtain ⟨hname, hrest⟩ := Text.word_append_inj (he name (List.mem_singleton_self name)).1.2
        (he' name' (List.mem_singleton_self name')).1.2 hcs hcs' h
      exact ⟨congrArg var hname, hrest⟩
    | const _ | unary _ _ | binary _ _ _ => cases hform
  | unary op d ih =>
    have hform := form_eq_of_append he he' h
    cases e' with
    | unary op' d' =>
      rw [render_unary, render_unary, String.toList_append, String.toList_append,
        List.append_assoc, List.append_assoc] at h
      have hd' : d'.Legible := he'
      obtain ⟨hop, hoperand⟩ := UnaryOp.symbol_append_inj h
      obtain ⟨hd, hrest⟩ := ih he hd' hcs hcs' hoperand
      exact ⟨by rw [hop, hd], hrest⟩
    | const _ | var _ | binary _ _ _ => cases hform
  | binary op l r ihl ihr =>
    have hform := form_eq_of_append he he' h
    cases e' with
    | binary op' l' r' =>
      obtain ⟨hl, hr⟩ := List.forall_mem_append.mp he
      obtain ⟨hl', hr'⟩ := List.forall_mem_append.mp he'
      rw [toList_render_binary, toList_render_binary] at h
      simp only [List.cons_append, List.append_assoc, List.nil_append, List.cons.injEq,
        true_and] at h
      -- A space follows the left operand, the symbol and the right operand.
      obtain ⟨hleft, hrest⟩ := ihl hl hl' (Text.endsWord_space _) (Text.endsWord_space _) h
      obtain ⟨hop, hrest⟩ := BinaryOp.symbol_append_inj (List.cons.inj hrest).2
      obtain ⟨hright, hrest⟩ := ihr hr hr' (Text.endsWord_space _) (Text.endsWord_space _)
        (List.cons.inj hrest).2
      obtain ⟨-, hrest⟩ := List.cons.inj (List.cons.inj hrest).2
      exact ⟨by rw [hleft, hop, hright], hrest⟩
    | const _ | var _ | unary _ _ => cases hform

theorem render_inj {e e' : Expr} (he : e.Legible) (he' : e'.Legible)
    (h : e.render.toList = e'.render.toList) : e = e' :=
  (render_append_inj he he' Text.endsWord_nil Text.endsWord_nil (congrArg (· ++ []) h)).1

/-- No expression starts as what stands behind the name of an assignment. -/
theorem toList_render_ne {e : Expr} (h : e.Legible) (cs : List Char) :
    e.render.toList ≠ '=' :: cs := by
  intro hcs
  have hform := form?_head h
  rw [hcs] at hform
  cases hform

theorem isLineFeed_of_mem_render {e : Expr} (h : e.Legible) :
    ∀ c ∈ e.render.toList, isLineFeed c = false := by
  induction e with
  | const v =>
    rw [render_const]
    exact (Numeral.isWord_text v).isLineFeed
  | var name =>
    rw [render_var]
    exact (h name (List.mem_singleton_self name)).1.isLineFeed
  | unary op e ih =>
    rw [render_unary, String.toList_append]
    exact List.forall_mem_append.mpr ⟨op.isWord_symbol.isLineFeed, ih h⟩
  | binary op l r ihl ihr =>
    obtain ⟨hl, hr⟩ := List.forall_mem_append.mp h
    rw [toList_render_binary]
    simp only [List.forall_mem_cons, List.forall_mem_append]
    exact ⟨rfl, rfl, ihl hl, rfl, op.isWord_symbol.isLineFeed, rfl, ihr hr, rfl, rfl, nofun⟩

end Expr

/-! ## Statements -/

namespace Statement

/-- The names of a statement can be told apart in infix text. -/
structure Legible (a : Statement) : Prop where
  target : ∀ name ∈ a.target?, IsWord name
  value : a.value.Legible

theorem toList_render_assign (name : String) (e : Expr) :
    (assign name e).render.toList = name.toList ++ ' ' :: '=' :: ' ' :: e.render.toList := by
  simp [render, String.toList_append]

theorem toList_render_print (e : Expr) :
    (print e).render.toList = "Print".toList ++ ' ' :: e.render.toList := by
  simp [render, String.toList_append]

theorem isWord_print : IsWord "Print" := by decide

/-- **A statement is known by its line.** -/
theorem render_inj {a a' : Statement} (ha : a.Legible) (ha' : a'.Legible)
    (h : a.render = a'.render) : a = a' := by
  have htext := congrArg String.toList h
  -- The first words agree, and what is left are two values, or a value and `= ` with another.
  cases a with
  | assign name e =>
    have hname := (ha.target name rfl).2
    rw [toList_render_assign] at htext
    cases a' with
    | assign name' e' =>
      rw [toList_render_assign] at htext
      obtain ⟨rfl, hrest⟩ := Text.word_append_inj hname (ha'.target name' rfl).2
        (Text.endsWord_space _) (Text.endsWord_space _) htext
      simp only [List.cons.injEq, true_and] at hrest
      exact congrArg (assign name) (Expr.render_inj ha.value ha'.value hrest)
    | print e' =>
      rw [toList_render_print] at htext
      obtain ⟨-, hrest⟩ := Text.word_append_inj hname isWord_print.2
        (Text.endsWord_space _) (Text.endsWord_space _) htext
      exact absurd (List.cons.inj hrest).2.symm (Expr.toList_render_ne ha'.value _)
  | print e =>
    rw [toList_render_print] at htext
    cases a' with
    | assign name' e' =>
      rw [toList_render_assign] at htext
      obtain ⟨-, hrest⟩ := Text.word_append_inj isWord_print.2 (ha'.target name' rfl).2
        (Text.endsWord_space _) (Text.endsWord_space _) htext
      exact absurd (List.cons.inj hrest).2 (Expr.toList_render_ne ha.value _)
    | print e' =>
      rw [toList_render_print] at htext
      obtain ⟨-, hrest⟩ := Text.word_append_inj isWord_print.2 isWord_print.2
        (Text.endsWord_space _) (Text.endsWord_space _) htext
      exact congrArg print (Expr.render_inj ha.value ha'.value (List.cons.inj hrest).2)

/-- A statement takes one line. -/
theorem isLineFeed_of_mem_render {a : Statement} (ha : a.Legible) :
    ∀ c ∈ a.render.toList, isLineFeed c = false := by
  have hvalue := Expr.isLineFeed_of_mem_render ha.value
  cases a with
  | assign name e =>
    rw [toList_render_assign]
    simp only [List.forall_mem_cons, List.forall_mem_append]
    exact ⟨(ha.target name rfl).isLineFeed, rfl, rfl, rfl, hvalue⟩
  | print e =>
    rw [toList_render_print]
    simp only [List.forall_mem_cons, List.forall_mem_append]
    exact ⟨isWord_print.isLineFeed, rfl, hvalue⟩

end Statement

/-! ## Programs -/

namespace Program

/-- The names of a program are words, and those of variables start with a letter. -/
structure Legible (p : Program) : Prop where
  words : ∀ name ∈ p.names, IsWord name
  letters : ∀ a ∈ p, ∀ name ∈ a.value.names, startsWithLetter name

theorem Legible.statement {p : Program} (h : p.Legible) : ∀ a ∈ p, a.Legible := by
  intro a ha
  have hnames : ∀ name ∈ a.names, IsWord name := fun name hn =>
    h.words name (List.mem_flatMap.mpr ⟨a, ha, hn⟩)
  refine ⟨fun name hn => ?_, fun name hn => ⟨?_, h.letters a ha name hn⟩⟩
  · exact hnames name (List.mem_append_left _ (Option.mem_toList.mpr hn))
  · exact hnames name (List.mem_append_right _ hn)

theorem legible_of_ofSource {source : String} {p : Program} (h : ofSource source = .ok p) :
    p.Legible :=
  ⟨isWord_of_ofSource h, (spells_of_ofTokens h).startsWithLetter⟩

theorem map_render_inj {p q : Program} (hp : ∀ a ∈ p, a.Legible) (hq : ∀ a ∈ q, a.Legible)
    (h : p.map Statement.render = q.map Statement.render) : p = q := by
  induction p generalizing q with
  | nil =>
    cases q with
    | nil => rfl
    | cons a' q => cases h
  | cons a p ih =>
    cases q with
    | nil => cases h
    | cons a' q =>
      obtain ⟨ha, hp⟩ := List.forall_mem_cons.mp hp
      obtain ⟨ha', hq⟩ := List.forall_mem_cons.mp hq
      obtain ⟨hfirst, hrest⟩ := List.cons.inj h
      rw [Statement.render_inj ha ha' hfirst, ih hp hq hrest]

/-- **A legible program is known by its infix text.** -/
theorem render_inj {p q : Program} (hp : p.Legible) (hq : q.Legible) (h : p.render = q.render) :
    p = q := by
  have hlines {r : Program} (hr : r.Legible) :
      ∀ line ∈ r.map Statement.render, ∀ c ∈ line.toList, isLineFeed c = false := by
    intro line hline
    obtain ⟨a, ha, rfl⟩ := List.mem_map.mp hline
    exact Statement.isLineFeed_of_mem_render (hr.statement a ha)
  exact map_render_inj hp.statement hq.statement
    (Text.joinLines_inj (hlines hp) (hlines hq) h)

end Program

/-- **Infix text determines its program.**  Two programs whose names are words, those of
variables starting with a letter, are the same program if their infix texts are the same.
Programs that are read from text are of this kind. -/
theorem infix_text_determines_program :
    (∀ source p, Program.ofSource source = .ok p → p.Legible) ∧
    (∀ p q : Program, p.Legible → q.Legible → p.render = q.render → p = q) :=
  ⟨fun _ _ => Program.legible_of_ofSource, fun _ _ => Program.render_inj⟩

/-- Names that look like the start of a print statement, like an equals sign and like
brackets, and a sign that belongs to a number beside signs that are operators: one program
has this text. -/
theorem infix_text_determines_program_of_lookalikes :
    let text := "Print = ( -5 - x( )\n= = $!y)\nPrint !-5\n"
    let p : Program :=
      [.assign "Print" (.binary .sub (.const (-5)) (.var "x(")),
        .assign "=" (.unary .sqrt (.unary .negate (.var "y)"))),
        .print (.unary .negate (.const (-5)))]
    Program.ofSource "= Print - -5 x( = = $ ! y) @ ! -05" = .ok p ∧
      ∃! q : Program, q.Legible ∧ q.render = text := by
  intro text p
  obtain ⟨hlegible, hunique⟩ := infix_text_determines_program
  have hread : Program.ofSource "= Print - -5 x( = = $ ! y) @ ! -05" = .ok p := by rfl
  have hp : p.Legible := hlegible _ p hread
  have htext : p.render = text := by decide
  refine ⟨hread, p, ⟨hp, htext⟩, ?_⟩
  rintro q ⟨hq, hqtext⟩
  exact hunique q p hq hp (hqtext.trans htext.symm)

end PolishCalc
