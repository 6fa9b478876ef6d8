import PolishCalc.Spelling

/-! # What the reader has read

Between two tokens the reader holds complete statements, the start of a statement,
and operators that still await operands.  Each of these is spelled by tokens, and a
reader that has accepted `ts` so far is in a state that `ts` spells
(`Reader.feedAll_spells`): nothing it was fed is forgotten, and nothing is held
that was not fed.  One token at a time this is a matter of putting that token
behind what is there (`Reader.feed_spells`); a token that completes values makes
several spellings into one, which is `Reader.deliver_spells`.

At the end of a program the reader's state is the program alone, so what is
accepted is spelled by the tokens (`Program.spells_of_ofTokens`), and every name in
it is one of them.
-/
namespace PolishCalc

/-- `ts` spells an operator that awaits an operand, with the operand that it has. -/
inductive Frame.Spells : Frame → List String → Prop
  | unary (op : UnaryOp) : Spells (.unary op) [op.symbol]
  | left (op : BinaryOp) : Spells (.left op) [op.symbol]
  | right (op : BinaryOp) {l : Expr} {ts : List String} (operand : l.Spells ts) :
      Spells (.right op l) (op.symbol :: ts)

/-- `ts` spells the operators that await operands.  The innermost, first among the
frames, was read last. -/
inductive PendingSpells : List Frame → List String → Prop
  | nil : PendingSpells [] []
  | cons {f : Frame} {frames : List Frame} {ts us : List String} (outer : PendingSpells frames ts)
      (inner : f.Spells us) : PendingSpells (f :: frames) (ts ++ us)

/-- The tokens before a statement's value. -/
def Goal.tokens : Goal → List String
  | assign name => [assignToken, name]
  | print => [printToken]

/-- `ts` spells as much of a statement as was read. -/
inductive Awaited.Spells : Awaited → List String → Prop
  | statement : Spells .statement []
  | name : Spells .name [assignToken]
  | value (goal : Goal) {frames : List Frame} {ts : List String}
      (pending : PendingSpells frames ts) : Spells (.value goal frames) (goal.tokens ++ ts)

/-- `ts` spells all that the reader holds. -/
inductive Reader.Spells : Reader → List String → Prop
  | intro {done : Program} {awaited : Awaited} {ts us : List String}
      (complete : Program.Spells done.reverse ts) (open_ : awaited.Spells us) :
      Spells ⟨done, awaited⟩ (ts ++ us)

/-! ## Statements and programs -/

theorem Goal.complete_spells (goal : Goal) {e : Expr} {ts : List String} (h : e.Spells ts) :
    (goal.complete e).Spells (goal.tokens ++ ts) := by
  cases goal with
  | assign name => exact .assign name h
  | print => exact .print h

theorem Program.Spells.append {p q : Program} {ts us : List String} (hp : p.Spells ts)
    (hq : q.Spells us) : Program.Spells (p ++ q) (ts ++ us) := by
  induction hp with
  | nil => exact hq
  | cons first _ ih =>
    rw [List.append_assoc]
    exact .cons first ih

theorem Statement.Spells.program {a : Statement} {ts : List String} (h : a.Spells ts) :
    Program.Spells [a] ts := by
  have := Program.Spells.cons h .nil
  rwa [List.append_nil] at this

/-! ## One token -/

/-- A token that is a value by itself spells that value. -/
theorem Expr.spells_of_ofToken? {token : String} {e : Expr} (h : ofToken? token = some e) :
    e.Spells [token] := by
  unfold ofToken? at h
  split at h
  · rename_i letter
    cases h
    exact .var letter
  · obtain ⟨v, hv, rfl⟩ := Option.map_eq_some_iff.mp h
    exact .const (Numeral.value?_eq_some_iff.mp hv)

namespace Reader

/-- A value joins the spelling of what awaited it. -/
theorem deliver_spells {done : Program} {ds : List String} (hd : Program.Spells done.reverse ds)
    (goal : Goal) {frames : List Frame} {fs : List String} (hf : PendingSpells frames fs) {e : Expr}
    {es : List String} (he : e.Spells es) :
    (deliver done goal e frames).Spells (ds ++ (goal.tokens ++ (fs ++ es))) := by
  -- By recursion on the frames, as `deliver` itself: a completed operator is a value with a
  -- longer spelling, delivered to the frames below.
  induction hf generalizing e es with
  | nil =>
    have hall := hd.append (goal.complete_spells he).program
    rw [← List.reverse_cons] at hall
    have := Spells.intro hall .statement
    rwa [List.append_nil] at this
  | @cons f frames ts us outer inner ih =>
    rw [List.append_assoc]
    cases inner with
    | unary op => exact ih (.unary op he)
    | left op => exact .intro hd (.value goal (.cons outer (.right op he)))
    | right op operand => exact ih (.binary op operand he)

theorem feedStatement_spells {done : Program} {ts : List String} {token : String} {r : Reader}
    (hd : Program.Spells done.reverse ts) (h : feedStatement done token = .ok r) :
    r.Spells (ts ++ [token]) := by
  unfold feedStatement at h
  split at h
  · rename_i heq
    cases h
    subst heq
    exact .intro hd .name
  · split at h
    · rename_i heq
      cases h
      subst heq
      exact .intro hd (.value .print .nil)
    · cases h

theorem feedValue_spells {done : Program} {ds : List String} (hd : Program.Spells done.reverse ds)
    {goal : Goal} {frames : List Frame} {fs : List String} (hf : PendingSpells frames fs)
    {token : String} {r : Reader} (h : feedValue done goal frames token = .ok r) :
    r.Spells (ds ++ (goal.tokens ++ (fs ++ [token]))) := by
  unfold feedValue at h
  split at h
  · rename_i op hop
    cases h
    rw [BinaryOp.ofSymbol?_eq_some_iff.mp hop]
    exact .intro hd (.value goal (.cons hf (.left op)))
  · split at h
    · rename_i op hop
      cases h
      rw [UnaryOp.ofSymbol?_eq_some_iff.mp hop]
      exact .intro hd (.value goal (.cons hf (.unary op)))
    · split at h
      · rename_i e he
        cases h
        exact deliver_spells hd goal hf (Expr.spells_of_ofToken? he)
      · cases h

/-- **One token is put behind what was read.** -/
theorem feed_spells {r r' : Reader} {ts : List String} {token : String} (h : r.Spells ts)
    (hf : r.feed token = .ok r') : r'.Spells (ts ++ [token]) := by
  obtain ⟨hd, ha⟩ := h
  rw [List.append_assoc]
  cases ha with
  | statement => exact feedStatement_spells hd hf
  | name =>
    cases hf
    exact .intro hd (.value (.assign token) .nil)
  | value goal pending =>
    rw [List.append_assoc]
    exact feedValue_spells hd pending hf

/-- **The reader holds exactly what it was fed.** -/
theorem feedAll_spells {r r' : Reader} {ts us : List String} (h : r.Spells ts)
    (hf : r.feedAll us = .ok r') : r'.Spells (ts ++ us) := by
  induction us generalizing r ts with
  | nil =>
    cases hf
    rwa [List.append_nil]
  | cons token rest ih =>
    rw [feedAll_cons] at hf
    cases ht : r.feed token with
    | error f => rw [ht] at hf; cases hf
    | ok next =>
      rw [ht] at hf
      rw [← List.singleton_append, ← List.append_assoc]
      exact ih (feed_spells h ht) hf

theorem spells_initial : Spells {} [] :=
  @Spells.intro [] .statement [] [] .nil .statement

/-- What was read is complete statements, and then the start of one. -/
theorem Spells.split {done : Program} {awaited : Awaited} {ts : List String}
    (h : Spells ⟨done, awaited⟩ ts) :
    ∃ front back, Program.Spells done.reverse front ∧ awaited.Spells back ∧ ts = front ++ back := by
  obtain ⟨complete, open_⟩ := h
  exact ⟨_, _, complete, open_, rfl⟩

/-- The state that is reached from the start is spelled by all the tokens. -/
theorem spells_of_feedAll {r : Reader} {ts : List String} (h : feedAll {} ts = .ok r) :
    r.Spells ts :=
  feedAll_spells spells_initial h

end Reader

/-! ## What is accepted -/

/-- What is accepted was read to the end of a statement. -/
theorem Program.ofTokens_eq_ok_iff {ts : List String} {p : Program} :
    ofTokens ts = .ok p ↔ Reader.feedAll {} ts = .ok ⟨p.reverse, .statement⟩ := by
  have hdef : ofTokens ts = Reader.feedAll {} ts >>= Reader.finish := rfl
  rw [hdef]
  constructor
  · intro h
    cases hr : Reader.feedAll {} ts with
    | error f => rw [hr] at h; cases h
    | ok r =>
      rw [hr] at h
      obtain ⟨done, awaited⟩ := r
      cases awaited with
      | statement =>
        have hp : done.reverse = p := Except.ok.inj h
        rw [← hp, List.reverse_reverse]
      | name => cases h
      | value goal frames => cases h
  · intro h
    rw [h]
    exact congrArg Except.ok (List.reverse_reverse p)

/-- **What is accepted is spelled by the tokens.** -/
theorem Program.spells_of_ofTokens {ts : List String} {p : Program} (h : ofTokens ts = .ok p) :
    p.Spells ts := by
  obtain ⟨front, back, complete, open_, rfl⟩ :=
    (Reader.spells_of_feedAll (ofTokens_eq_ok_iff.mp h)).split
  cases open_
  rw [List.reverse_reverse] at complete
  rwa [List.append_nil]

/-! ## Names are tokens -/

theorem Expr.Spells.mem_of_mem_names {e : Expr} {ts : List String} (h : e.Spells ts)
    {name : String} (hn : name ∈ e.names) : name ∈ ts := by
  induction h with
  | const writes => cases hn
  | var letter => exact hn
  | unary op _ ih => exact List.mem_cons_of_mem _ (ih hn)
  | binary op _ _ ihl ihr =>
    refine List.mem_cons_of_mem _ (List.mem_append.mpr ?_)
    exact (List.mem_append.mp hn).imp ihl ihr

theorem Statement.Spells.mem_of_mem_names {a : Statement} {ts : List String} (h : a.Spells ts)
    {name : String} (hn : name ∈ a.names) : name ∈ ts := by
  cases h with
  | assign target value =>
    rcases List.mem_cons.mp hn with rfl | hn
    · exact List.mem_cons_of_mem _ List.mem_cons_self
    · exact List.mem_cons_of_mem _ (List.mem_cons_of_mem _ (value.mem_of_mem_names hn))
  | print value => exact List.mem_cons_of_mem _ (value.mem_of_mem_names hn)

/-- Every name of a program is among the tokens that spell it. -/
theorem Program.Spells.mem_of_mem_names {p : Program} {ts : List String} (h : p.Spells ts)
    {name : String} (hn : name ∈ p.names) : name ∈ ts := by
  induction h with
  | nil => cases hn
  | cons first _ ih =>
    rw [Program.names_cons, List.mem_append] at hn
    exact List.mem_append.mpr (hn.imp first.mem_of_mem_names ih)

theorem Expr.Spells.startsWithLetter {e : Expr} {ts : List String} (h : e.Spells ts) :
    ∀ name ∈ e.names, startsWithLetter name := by
  induction h with
  | const writes => exact nofun
  | var letter => exact List.forall_mem_singleton.mpr letter
  | unary op _ ih => exact ih
  | binary op _ _ ihl ihr => exact List.forall_mem_append.mpr ⟨ihl, ihr⟩

/-- The variables that a program reads start with letters; the names that it binds need
not. -/
theorem Program.Spells.startsWithLetter {p : Program} {ts : List String} (h : p.Spells ts) :
    ∀ a ∈ p, ∀ name ∈ a.value.names, startsWithLetter name := by
  induction h with
  | nil => exact nofun
  | cons first _ ih =>
    refine List.forall_mem_cons.mpr ⟨?_, ih⟩
    cases first with
    | assign target value => exact value.startsWithLetter
    | print value => exact value.startsWithLetter

/-- **The names of a program that is read from text are words.** -/
theorem Program.isWord_of_ofSource {source : String} {p : Program} (h : ofSource source = .ok p) :
    ∀ name ∈ p.names, Text.IsWord name := fun _ hn =>
  Text.isWord_of_mem_words ((spells_of_ofTokens h).mem_of_mem_names hn)

end PolishCalc
