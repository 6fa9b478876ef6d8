import PolishCalc.Outcome

/-! # Where a run stops

A run takes its steps in order, up to the first that fails.  If one fails, the run stops at
a single index (`Outcome.exists_stopsAt`, `Outcome.StopsAt.unique`): the steps before it
succeed, and the step there fails on the state that they lead to.  The outcome of the whole
run is then the outcome of this one step, and it does not matter which steps were to follow
(`Outcome.StopsAt.run_append`).

Programs and code are run in the same way, so both of them stop like this.  What the failed
step leaves behind is where they differ.
-/
namespace PolishCalc.Outcome

universe u v

/-- The run over `as` from `s` stops at index `k`: the steps before it lead to `t`, and there
the step `a`, the one at `k`, fails. -/
structure StopsAt {σ : Type u} {α : Type v} (step : σ → α → Outcome σ) (s : σ) (as : List α)
    (k : Nat) (a : α) (t : σ) (f : Fault) : Prop where
  here : as[k]? = some a
  reached : run step s (as.take k) = ⟨t, none⟩
  fails : (step t a).fault = some f

variable {σ : Type u} {α : Type v} {step : σ → α → Outcome σ} {s t t' : σ} {a a' : α}
  {as : List α} {k k' : Nat} {f f' : Fault}

/-- Nothing is run behind a step that fails. -/
theorem run_cons_of_fault (h : (step s a).fault = some f) (rest : List α) :
    run step s (a :: rest) = step s a := by
  rw [run_cons]
  rcases hstep : step s a with ⟨next, _ | g⟩
  · rw [hstep] at h
    cases h
  · rfl

/-- **A run that fails stops somewhere.** -/
theorem exists_stopsAt (h : (run step s as).fault = some f) :
    ∃ k a t, StopsAt step s as k a t f := by
  induction as generalizing s with
  | nil => cases h
  | cons first rest ih =>
    rw [run_cons] at h
    rcases hfirst : step s first with ⟨next, _ | g⟩
    · rw [hfirst, andThen_none] at h
      obtain ⟨k, a, t, hstops⟩ := ih h
      refine ⟨k + 1, a, t, hstops.here, ?_, hstops.fails⟩
      rw [List.take_succ_cons, run_cons, hfirst, andThen_none, hstops.reached]
    · rw [hfirst, andThen_some] at h
      exact ⟨0, first, s, rfl, rfl, hfirst ▸ h⟩

/-- **The steps behind the one that fails have no influence.** -/
theorem StopsAt.run_append (h : StopsAt step s as k a t f) (back : List α) :
    run step s (as.take (k + 1) ++ back) = step t a := by
  have htake : as.take (k + 1) = as.take k ++ [a] := by
    rw [List.take_add_one, h.here, Option.toList_some]
  rw [htake, List.append_assoc, Outcome.run_append, h.reached, andThen_none]
  exact run_cons_of_fault h.fails back

/-- The outcome of the run is that of the step which fails. -/
theorem StopsAt.run_eq (h : StopsAt step s as k a t f) : run step s as = step t a := by
  have hsplit := h.run_append (as.drop (k + 1))
  rwa [List.take_append_drop] at hsplit

/-- A run that gets beyond the index has failed there. -/
theorem StopsAt.fault_take (h : StopsAt step s as k a t f) (hk : k < k') :
    (run step s (as.take k')).fault = some f := by
  have htake : as.take k' = as.take (k + 1) ++ (as.take k').drop (k + 1) := by
    have hsplit := List.take_append_drop (k + 1) (as.take k')
    rw [List.take_take, Nat.min_eq_left hk] at hsplit
    exact hsplit.symm
  rw [htake, h.run_append]
  exact h.fails

/-- **A run stops at one index at most.** -/
theorem StopsAt.unique (h : StopsAt step s as k a t f) (h' : StopsAt step s as k' a' t' f') :
    k' = k := by
  -- At the larger of two indices the run would not have come through the smaller one.
  rcases Nat.lt_trichotomy k' k with hlt | heq | hgt
  · have hfault := h'.fault_take hlt
    rw [h.reached] at hfault
    cases hfault
  · exact heq
  · have hfault := h.fault_take hgt
    rw [h'.reached] at hfault
    cases hfault

end PolishCalc.Outcome
