import PolishCalc.Proofs.ReadTokens

/-! # Accepted and viable tokens

Tokens are accepted if they spell a program, and viable if more tokens after them
can make them so.  Both are read off the reader: tokens are accepted when it stands
between two statements, and viable when it has refused none of them.

The second needs that no state of the reader is a dead end.  What a state still
owes is a number of values: one for the statement that is being read, and one more
for each binary operator without operands.  A value that is supplied pays for one
of them and opens no new debt, since operators that it completes are themselves the
values that others waited for (`Reader.owed_deliver`).  So as many zeros as values
are owed complete any statement, whatever was read before.
-/
namespace PolishCalc

namespace Program

/-- The tokens spell a program. -/
def Accepted (ts : List String) : Prop := ∃ p, ofTokens ts = .ok p

/-- Some tokens that begin with `ts` spell a program. -/
def Viable (ts : List String) : Prop := ∃ more, Accepted (ts ++ more)

/-- The next token after `ts` is the name that an assignment binds. -/
def NameDue (ts : List String) : Prop := ∃ front, Accepted front ∧ ts = front ++ [assignToken]

/-- Tokens are accepted if the reader stands between two statements. -/
theorem accepted_iff {ts : List String} :
    Accepted ts ↔ ∃ done, Reader.feedAll {} ts = .ok ⟨done, .statement⟩ := by
  constructor
  · rintro ⟨p, hp⟩
    exact ⟨p.reverse, ofTokens_eq_ok_iff.mp hp⟩
  · rintro ⟨done, hd⟩
    refine ⟨done.reverse, ofTokens_eq_ok_iff.mpr ?_⟩
    rw [List.reverse_reverse]
    exact hd

/-- A name is due exactly when the reader awaits one. -/
theorem nameDue_iff {ts : List String} :
    NameDue ts ↔ ∃ done, Reader.feedAll {} ts = .ok ⟨done, .name⟩ := by
  constructor
  · rintro ⟨front, haccepted, rfl⟩
    obtain ⟨done, hd⟩ := accepted_iff.mp haccepted
    exact ⟨done, Reader.feedAll_append_of_ok hd _⟩
  · rintro ⟨done, hd⟩
    obtain ⟨front, back, complete, open_, hsplit⟩ := (Reader.spells_of_feedAll hd).split
    cases open_
    exact ⟨front, ⟨_, ofTokens_of_spells complete⟩, hsplit⟩

end Program

/-! ## What is still owed -/

/-- The operator needs another value besides the one that is being read. -/
def Frame.needsAnother : Frame → Bool
  | unary _ => false
  | left _ => true
  | right _ _ => false

/-- The values that are missing to the end of the statement. -/
def Awaited.owed : Awaited → Nat
  | statement => 0
  | name => 1
  | value _ frames => 1 + frames.countP Frame.needsAnother

namespace Reader

/-- A value that is delivered pays for itself and for nothing else. -/
theorem owed_deliver (done : Program) (goal : Goal) (e : Expr) (frames : List Frame) :
    (deliver done goal e frames).awaited.owed = frames.countP Frame.needsAnother := by
  induction frames generalizing e with
  | nil => rfl
  | cons f frames ih =>
    cases f with
    | unary op =>
      rw [List.countP_cons_of_neg Bool.false_ne_true]
      exact ih _
    | left op =>
      rw [List.countP_cons_of_pos rfl]
      show 1 + (Frame.right op e :: frames).countP Frame.needsAnother = _
      rw [List.countP_cons_of_neg Bool.false_ne_true, Nat.add_comm]
    | right op l =>
      rw [List.countP_cons_of_neg Bool.false_ne_true]
      exact ih _

/-- After a value comes another value or a statement, never a name. -/
theorem deliver_awaited_ne_name (done : Program) (goal : Goal) (e : Expr) (frames : List Frame) :
    (deliver done goal e frames).awaited ≠ .name := by
  induction frames generalizing e with
  | nil => exact nofun
  | cons f frames ih =>
    cases f with
    | unary op => exact ih _
    | left op => exact nofun
    | right op l => exact ih _

/-- **As many zeros as values are owed** complete the statement. -/
theorem feedAll_zeros (r : Reader) (hname : r.awaited ≠ .name) :
    ∃ done, r.feedAll (List.replicate r.awaited.owed "0") = .ok ⟨done, .statement⟩ := by
  -- Each zero lowers the debt by one, so the induction is on the debt.
  generalize howed : r.awaited.owed = n
  induction n generalizing r with
  | zero =>
    obtain ⟨done, awaited⟩ := r
    cases awaited with
    | statement => exact ⟨done, rfl⟩
    | name => exact absurd rfl hname
    | value goal frames =>
      have hpos : 1 + frames.countP Frame.needsAnother = 0 := howed
      omega
  | succ n ih =>
    obtain ⟨done, awaited⟩ := r
    cases awaited with
    | statement => cases howed
    | name => exact absurd rfl hname
    | value goal frames =>
      have hzero : Expr.ofToken? "0" = some (.const 0) := by rfl
      have hdebt : (deliver done goal (.const 0) frames).awaited.owed = n := by
        have htotal : 1 + frames.countP Frame.needsAnother = n + 1 := howed
        rw [owed_deliver]
        omega
      rw [List.replicate_succ, feedAll_cons, feed_value, feedValue_of_ofToken? hzero]
      exact ih _ (deliver_awaited_ne_name done goal _ frames) hdebt

/-- **No state of the reader is a dead end.** -/
theorem exists_feedAll_statement (r : Reader) :
    ∃ more done, r.feedAll more = .ok ⟨done, .statement⟩ := by
  by_cases hname : r.awaited = .name
  · obtain ⟨done, awaited⟩ := r
    cases hname
    -- Any token will do for the name.
    obtain ⟨done', hrest⟩ := feedAll_zeros ⟨done, .value (.assign "x") []⟩ nofun
    refine ⟨"x" :: List.replicate 1 "0", done', ?_⟩
    rw [feedAll_cons, feed_name]
    exact hrest
  · obtain ⟨done, hrest⟩ := feedAll_zeros r hname
    exact ⟨_, done, hrest⟩

end Reader

/-- **Tokens are viable if the reader refuses none of them.** -/
theorem Program.viable_iff {ts : List String} :
    Viable ts ↔ ∃ r, Reader.feedAll {} ts = .ok r := by
  constructor
  · rintro ⟨more, haccepted⟩
    obtain ⟨done, hd⟩ := accepted_iff.mp haccepted
    rw [Reader.feedAll_append] at hd
    obtain ⟨r, hr, -⟩ := bind_eq_ok_iff.mp hd
    exact ⟨r, hr⟩
  · rintro ⟨r, hr⟩
    obtain ⟨more, done, hmore⟩ := r.exists_feedAll_statement
    refine ⟨more, accepted_iff.mpr ⟨done, ?_⟩⟩
    rw [Reader.feedAll_append_of_ok hr]
    exact hmore

end PolishCalc
