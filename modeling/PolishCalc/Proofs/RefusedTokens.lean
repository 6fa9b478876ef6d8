import PolishCalc.Proofs.Acceptance

/-! # Which token is refused

Tokens that spell no program are refused for one of two reasons.  Either they stop
too early, and more tokens could still make a program of them; or one token among
them is the first after which no program is possible.  The fault tells the two
apart, and in the second case it names that token and says whether a statement was
due in its place or a value.

The first token without a continuation is determined by the tokens alone
(`RefusedAt.unique`), with no reader in sight.  The reader finds it because it
refuses a token just when nothing can follow it (`Program.viable_iff`), and because
what it refuses it has not yet looked beyond.
-/
namespace PolishCalc

/-- `token`, between `front` and `back`, is the first of the tokens `ts` after which
no program is possible. -/
structure RefusedAt (ts front : List String) (token : String) (back : List String) : Prop where
  split : ts = front ++ token :: back
  viable : Program.Viable front
  stuck : ¬ Program.Viable (front ++ [token])

/-! ## The first token without a continuation -/

theorem Program.Viable.of_append {front back : List String} (h : Viable (front ++ back)) :
    Viable front := by
  obtain ⟨more, haccepted⟩ := h
  refine ⟨back ++ more, ?_⟩
  rwa [← List.append_assoc]

namespace RefusedAt

variable {ts front front' back back' : List String} {token token' : String}

/-- Nothing viable reaches beyond the refused token. -/
theorem length_le (h : RefusedAt ts front token back) (h' : RefusedAt ts front' token' back') :
    front'.length ≤ front.length := by
  refine Nat.le_of_not_lt fun hlt => ?_
  have hprefix : front ++ [token] <+: ts := ⟨back, by rw [h.split, List.append_assoc]; rfl⟩
  have hprefix' : front' <+: ts := ⟨token' :: back', h'.split.symm⟩
  have hlen : (front ++ [token]).length ≤ front'.length := by
    rw [List.length_append, List.length_singleton]
    omega
  obtain ⟨z, hz⟩ := List.prefix_of_prefix_length_le hprefix hprefix' hlen
  have hviable := h'.viable
  rw [← hz] at hviable
  exact h.stuck hviable.of_append

/-- **There is one refused token at most.** -/
theorem unique (h : RefusedAt ts front token back) (h' : RefusedAt ts front' token' back') :
    front' = front ∧ token' = token ∧ back' = back := by
  have hlen : front'.length = front.length := Nat.le_antisymm (h.length_le h') (h'.length_le h)
  obtain ⟨hfront, hrest⟩ := List.append_inj (h'.split.symm.trans h.split) hlen
  exact ⟨hfront, (List.cons.inj hrest).1, (List.cons.inj hrest).2⟩

/-- Tokens that hold a refused one are not viable. -/
theorem not_viable (h : RefusedAt ts front token back) : ¬ Program.Viable ts := by
  intro hviable
  rw [h.split, ← List.singleton_append, ← List.append_assoc] at hviable
  exact h.stuck hviable.of_append

end RefusedAt

/-! ## What the reader refuses -/

namespace Reader

/-- A refused token is named in the fault, as a statement or as a value, whichever was
due. -/
theorem feed_fault {r : Reader} {token : String} {f : Fault} (h : r.feed token = .error f) :
    r.awaited = .statement ∧ f = .illegalAction token ∨
      r.awaited ≠ .statement ∧ f = .illegalOperator token := by
  obtain ⟨done, awaited⟩ := r
  cases awaited with
  | statement =>
    refine .inl ⟨rfl, ?_⟩
    rw [feed_statement, feedStatement] at h
    split at h
    · cases h
    · split at h
      · cases h
      · exact (Except.error.inj h).symm
  | name => cases h
  | value goal frames =>
    refine .inr ⟨nofun, ?_⟩
    rw [feed_value, feedValue] at h
    split at h
    · cases h
    · split at h
      · cases h
      · split at h
        · cases h
        · exact (Except.error.inj h).symm

/-- A fault in reading is that of one token, which the reader meets after the tokens
before it. -/
theorem exists_of_feedAll_error {r : Reader} {ts : List String} {f : Fault}
    (h : r.feedAll ts = .error f) :
    ∃ front token back next, ts = front ++ token :: back ∧ r.feedAll front = .ok next ∧
      next.feed token = .error f := by
  induction ts generalizing r with
  | nil => cases h
  | cons t rest ih =>
    rw [feedAll_cons] at h
    rcases bind_eq_error_iff.mp h with ht | ⟨next, hnext, hrest⟩
    · exact ⟨[], t, rest, r, rfl, rfl, ht⟩
    · obtain ⟨front, token, back, last, hsplit, hfront, htoken⟩ := ih hrest
      refine ⟨t :: front, token, back, last, by rw [hsplit]; rfl, ?_, htoken⟩
      rw [feedAll_cons, hnext]
      exact hfront

/-- The tokens after a refused one are not looked at. -/
theorem feedAll_append_refused {r next : Reader} {front : List String} {token : String} {f : Fault}
    (hfront : r.feedAll front = .ok next) (htoken : next.feed token = .error f)
    (back : List String) : r.feedAll (front ++ token :: back) = .error f := by
  rw [feedAll_append_of_ok hfront, feedAll_cons, htoken]
  rfl

theorem finish_fault {r : Reader} {f : Fault} (h : r.finish = .error f) : f = .prematureEnd := by
  unfold finish at h
  split at h
  · cases h
  · exact (Except.error.inj h).symm

end Reader

/-! ## Faults of reading -/

namespace Program

theorem ofTokens_of_feedAll_error {ts : List String} {f : Fault}
    (h : Reader.feedAll {} ts = .error f) : ofTokens ts = .error f := by
  rw [ofTokens, h]
  rfl

/-- A fault comes from a refused token, or from the end of the tokens inside a
statement. -/
theorem ofTokens_fault {ts : List String} {f : Fault} (h : ofTokens ts = .error f) :
    (Viable ts ∧ f = .prematureEnd) ∨
      ∃ front token back next, ts = front ++ token :: back ∧
        Reader.feedAll {} front = .ok next ∧ next.feed token = .error f := by
  rcases bind_eq_error_iff.mp h with hfeed | ⟨r, hr, hfinish⟩
  · exact .inr (Reader.exists_of_feedAll_error hfeed)
  · exact .inl ⟨viable_iff.mpr ⟨r, hr⟩, Reader.finish_fault hfinish⟩

section Refused

variable {front : List String} {next : Reader} {token : String} {f : Fault}

/-- A token that the reader refuses has no continuation. -/
theorem refusedAt_of_feed_error (hfront : Reader.feedAll {} front = .ok next)
    (htoken : next.feed token = .error f) (back : List String) :
    RefusedAt (front ++ token :: back) front token back := by
  refine ⟨rfl, viable_iff.mpr ⟨next, hfront⟩, ?_⟩
  intro hviable
  obtain ⟨r, hr⟩ := viable_iff.mp hviable
  rw [Reader.feedAll_append_refused hfront htoken] at hr
  cases hr

/-- The reader stands between two statements just if the tokens before it are a
program. -/
theorem accepted_iff_awaited (hfront : Reader.feedAll {} front = .ok next) :
    Accepted front ↔ next.awaited = .statement := by
  rw [accepted_iff, hfront]
  constructor
  · rintro ⟨done, hd⟩
    exact congrArg Reader.awaited (Except.ok.inj hd)
  · intro hstatement
    exact ⟨next.done, by rw [← hstatement]⟩

/-- The fault of a refused token, by the tokens before it. -/
theorem fault_of_feed_error (hfront : Reader.feedAll {} front = .ok next)
    (htoken : next.feed token = .error f) :
    (Accepted front → f = .illegalAction token) ∧
      (¬ Accepted front → f = .illegalOperator token) := by
  rw [accepted_iff_awaited hfront]
  rcases Reader.feed_fault htoken with ⟨hstatement, hf⟩ | ⟨hvalue, hf⟩
  · exact ⟨fun _ => hf, fun hn => absurd hstatement hn⟩
  · exact ⟨fun hs => absurd hs hvalue, fun _ => hf⟩

theorem ne_prematureEnd_of_feed_error (htoken : next.feed token = .error f) :
    f ≠ .prematureEnd := by
  rcases Reader.feed_fault htoken with ⟨-, rfl⟩ | ⟨-, rfl⟩
  · exact nofun
  · exact nofun

end Refused
end Program

/-- **A fault of reading places itself.**  Tokens that are rejected end too early
exactly if more tokens could make a program of them.  Otherwise one of them is
refused, and no other could be: the fault names it, as no start of a statement
if the tokens before it are a program, as no value if they are not, and whatever
stands behind it makes no difference. -/
theorem rejected_tokens_fault {ts : List String} {f : Fault} (h : Program.ofTokens ts = .error f) :
    (f = .prematureEnd ↔ Program.Viable ts) ∧
    (f ≠ .prematureEnd →
      ∃ front token back, RefusedAt ts front token back ∧
        (∀ front' token' back', RefusedAt ts front' token' back' →
          front' = front ∧ token' = token ∧ back' = back) ∧
        (Program.Accepted front → f = .illegalAction token) ∧
        (¬ Program.Accepted front → f = .illegalOperator token) ∧
        ∀ back', Program.ofTokens (front ++ token :: back') = .error f) := by
  rcases Program.ofTokens_fault h with
    ⟨hviable, hf⟩ | ⟨front, token, back, next, hts, hfront, htoken⟩
  · exact ⟨⟨fun _ => hviable, fun _ => hf⟩, fun hne => absurd hf hne⟩
  · have hat : RefusedAt ts front token back := by
      rw [hts]
      exact Program.refusedAt_of_feed_error hfront htoken back
    have hne : f ≠ .prematureEnd := Program.ne_prematureEnd_of_feed_error htoken
    obtain ⟨haction, hoperator⟩ := Program.fault_of_feed_error hfront htoken
    refine ⟨⟨fun hf => absurd hf hne, fun hviable => absurd hviable hat.not_viable⟩, fun _ => ?_⟩
    refine ⟨front, token, back, hat, fun _ _ _ => hat.unique, haction, hoperator, ?_⟩
    intro back'
    exact Program.ofTokens_of_feedAll_error (Reader.feedAll_append_refused hfront htoken back')

/-- A token refused inside a value, after a name that looks like the start of a
statement. -/
theorem rejected_tokens_fault_inside_value :
    Program.ofTokens ["@", "1", "=", "@", "+", "2", "#", "7", "@"] =
        .error (.illegalOperator "#") ∧
      ¬ Program.Viable ["@", "1", "=", "@", "+", "2", "#", "7", "@"] ∧
      ∃ front token back, RefusedAt ["@", "1", "=", "@", "+", "2", "#", "7", "@"] front token back ∧
        ∀ back', Program.ofTokens (front ++ token :: back') = .error (.illegalOperator "#") := by
  have hread : Program.ofTokens ["@", "1", "=", "@", "+", "2", "#", "7", "@"] =
      .error (.illegalOperator "#") := by rfl
  obtain ⟨hend, hrefused⟩ := rejected_tokens_fault hread
  obtain ⟨front, token, back, hat, -, -, -, hends⟩ := hrefused nofun
  exact ⟨hread, fun hviable => absurd (hend.mpr hviable) nofun, front, token, back, hat, hends⟩

end PolishCalc
