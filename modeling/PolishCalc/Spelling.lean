import PolishCalc.Reader

/-! # The grammar of source text

Which tokens spell which program, stated as a relation and without the reader: a
statement by its start token, for an assignment the name as it is, and its value;
a value by its symbol and its operands from left to right.  Only numbers have
more than one spelling.  The reader, fed what spells a value, delivers exactly
that value, whatever was pending; so it accepts every spelling of a program.
-/
namespace PolishCalc

/-- `ts` spells an expression. -/
inductive Expr.Spells : Expr → List String → Prop
  /-- A number by any text that writes it. -/
  | const {v : Int32} {t : String} (writes : Numeral.Denotes t v.toInt) : Spells (.const v) [t]
  /-- A variable by its name, which has to start with a letter. -/
  | var {name : String} (letter : startsWithLetter name) : Spells (.var name) [name]
  | unary (op : UnaryOp) {e : Expr} {ts : List String} (operand : Spells e ts) :
      Spells (.unary op e) (op.symbol :: ts)
  | binary (op : BinaryOp) {l r : Expr} {ls rs : List String} (left : Spells l ls)
      (right : Spells r rs) : Spells (.binary op l r) (op.symbol :: (ls ++ rs))

/-- `ts` spells a statement. -/
inductive Statement.Spells : Statement → List String → Prop
  | assign (name : String) {e : Expr} {ts : List String} (value : e.Spells ts) :
      Spells (.assign name e) (assignToken :: name :: ts)
  | print {e : Expr} {ts : List String} (value : e.Spells ts) :
      Spells (.print e) (printToken :: ts)

/-- `ts` spells a program, statement by statement. -/
inductive Program.Spells : Program → List String → Prop
  | nil : Spells [] []
  | cons {a : Statement} {p : Program} {ts us : List String} (first : a.Spells ts)
      (rest : Spells p us) : Spells (a :: p) (ts ++ us)

/-! ## Tokens where a value starts

No token is at once a symbol and a variable or a number, so the order in which
the reader asks does not matter. -/

theorem UnaryOp.ofSymbol?_symbol (op : UnaryOp) : ofSymbol? op.symbol = some op :=
  ofSymbol?_eq_some_iff.mpr rfl

theorem BinaryOp.ofSymbol?_symbol (op : BinaryOp) : ofSymbol? op.symbol = some op :=
  ofSymbol?_eq_some_iff.mpr rfl

theorem Expr.ofToken?_unarySymbol (op : UnaryOp) : ofToken? op.symbol = none := by
  cases op <;> rfl

theorem Expr.ofToken?_binarySymbol (op : BinaryOp) : ofToken? op.symbol = none := by
  cases op <;> rfl

theorem BinaryOp.ofSymbol?_unarySymbol (op : UnaryOp) : ofSymbol? op.symbol = none := by
  cases op <;> rfl

theorem Expr.ofToken?_of_startsWithLetter {name : String} (h : startsWithLetter name) :
    ofToken? name = some (.var name) := by
  rw [ofToken?, if_pos h]

/-- A text that writes a number starts with a sign or a digit. -/
theorem startsWithLetter_of_denotes {t : String} {i : Int} (h : Numeral.Denotes t i) :
    startsWithLetter t = false := by
  obtain ⟨ds, hne, hds, h⟩ := h
  rw [startsWithLetter]
  rcases h with ⟨h, _⟩ | ⟨h, _⟩ | ⟨h, _⟩ <;> rw [h]
  · cases ds with
    | nil => exact absurd rfl hne
    | cons d rest =>
      rw [List.head?_cons, Option.any_some]
      exact Text.isAlpha_of_isDigit (hds d List.mem_cons_self)
  · rfl
  · rfl

theorem Expr.ofToken?_of_denotes {t : String} {v : Int32} (h : Numeral.Denotes t v.toInt) :
    ofToken? t = some (.const v) := by
  rw [ofToken?, startsWithLetter_of_denotes h, Numeral.value?_eq_some_iff.mpr h]
  rfl

/-- A token that is a value by itself is no unary operator's symbol. -/
theorem UnaryOp.ofSymbol?_of_ofToken? {token : String} {e : Expr}
    (h : Expr.ofToken? token = some e) : ofSymbol? token = none := by
  refine Option.eq_none_iff_forall_ne_some.mpr fun op hop => ?_
  rw [ofSymbol?_eq_some_iff.mp hop, Expr.ofToken?_unarySymbol] at h
  cases h

/-- A token that is a value by itself is no binary operator's symbol. -/
theorem BinaryOp.ofSymbol?_of_ofToken? {token : String} {e : Expr}
    (h : Expr.ofToken? token = some e) : ofSymbol? token = none := by
  refine Option.eq_none_iff_forall_ne_some.mpr fun op hop => ?_
  rw [ofSymbol?_eq_some_iff.mp hop, Expr.ofToken?_binarySymbol] at h
  cases h

/-- A token that is a value by itself is delivered as that value. -/
theorem Reader.feedValue_of_ofToken? {token : String} {e : Expr}
    (h : Expr.ofToken? token = some e) (done : Program) (goal : Goal) (frames : List Frame) :
    feedValue done goal frames token = .ok (deliver done goal e frames) := by
  rw [feedValue, BinaryOp.ofSymbol?_of_ofToken? h, UnaryOp.ofSymbol?_of_ofToken? h, h]

theorem Reader.feedValue_unarySymbol (op : UnaryOp) (done : Program) (goal : Goal)
    (frames : List Frame) :
    feedValue done goal frames op.symbol = .ok ⟨done, .value goal (.unary op :: frames)⟩ := by
  rw [feedValue, BinaryOp.ofSymbol?_unarySymbol, UnaryOp.ofSymbol?_symbol]

theorem Reader.feedValue_binarySymbol (op : BinaryOp) (done : Program) (goal : Goal)
    (frames : List Frame) :
    feedValue done goal frames op.symbol = .ok ⟨done, .value goal (.left op :: frames)⟩ := by
  rw [feedValue, BinaryOp.ofSymbol?_symbol]

/-! ## What spells a value is read as that value -/

namespace Reader

/-- **The reader delivers what it is fed a spelling of,** to whatever was pending. -/
theorem feedAll_of_spells {e : Expr} {ts : List String} (h : e.Spells ts) (done : Program)
    (goal : Goal) (frames : List Frame) :
    feedAll ⟨done, .value goal frames⟩ ts = .ok (deliver done goal e frames) := by
  induction h generalizing frames with
  | const writes =>
    rw [feedAll_cons, feed_value, feedValue_of_ofToken? (Expr.ofToken?_of_denotes writes)]
    rfl
  | var letter =>
    rw [feedAll_cons, feed_value, feedValue_of_ofToken? (Expr.ofToken?_of_startsWithLetter letter)]
    rfl
  | unary op _ ih =>
    rw [feedAll_cons, feed_value, feedValue_unarySymbol]
    exact ih (.unary op :: frames)
  | @binary op l r ls rs _ _ ihl ihr =>
    rw [feedAll_cons, feed_value, feedValue_binarySymbol]
    show feedAll _ (ls ++ rs) = _
    rw [feedAll_append, ihl (.left op :: frames)]
    exact ihr (.right op l :: frames)

theorem feedAll_of_statement_spells {a : Statement} {ts : List String} (h : a.Spells ts)
    (done : Program) : feedAll ⟨done, .statement⟩ ts = .ok ⟨a :: done, .statement⟩ := by
  cases h with
  | assign name value => exact feedAll_of_spells value done (.assign name) []
  | print value => exact feedAll_of_spells value done .print []

theorem feedAll_of_program_spells {p : Program} {ts : List String} (h : p.Spells ts)
    (done : Program) : feedAll ⟨done, .statement⟩ ts = .ok ⟨p.reverse ++ done, .statement⟩ := by
  induction h generalizing done with
  | nil => rfl
  | @cons a p ts us first rest ih =>
    rw [feedAll_append, feedAll_of_statement_spells first]
    show feedAll _ us = _
    rw [ih, List.reverse_cons, List.append_assoc]
    rfl

end Reader

/-- Every spelling of a program is accepted, as that program. -/
theorem Program.ofTokens_of_spells {p : Program} {ts : List String} (h : p.Spells ts) :
    ofTokens ts = .ok p := by
  rw [ofTokens, Reader.feedAll_of_program_spells h]
  show Except.ok _ = _
  rw [List.append_nil, List.reverse_reverse]

end PolishCalc
