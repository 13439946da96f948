import ConstraintSolver.Proofs.Chart
import ConstraintSolver.Proofs.Prefixes

/-! # Safety — no search breaks a rule

    In a store that has failed before, a search can only find that out and
    give up (`Doomed`).  In any other store the variables of the scope have
    values, and what is known about searches with a careful policy applies.
    Both together make an invariant under which every step goes well
    (`Secure.step`), and which every course keeps (`Course.secure`). -/

namespace ConstraintSolver

open Constraint Store

/-! ## Policies with a built-in choice of variables -/

section Policies

variable {ρ : Type} {policy : Policy ρ} {choice : VariableChoice}

/-- A policy with a built-in choice of the variable is careful if it chooses candidates. -/
theorem Policy.careful_of_choose (hvariable : policy.chooseVariable = choice.choose)
    (hvalue : policy.ChoosesCandidates) :
    policy.Careful := by
  refine ⟨fun s scope hscope => ?_, hvalue⟩
  rw [hvariable]
  refine (VariableChoice.choose_cases choice hscope).imp id ?_
  rintro ⟨v, hv, hchosen, _⟩
  exact ⟨v, hv, hchosen⟩

theorem Policy.choosesUnfixed_of_choose (hvariable : policy.chooseVariable = choice.choose) :
    policy.ChoosesUnfixed :=
  fun _ _ _ h => isFixed_of_choose (hvariable ▸ h)

end Policies

namespace Search

variable {ρ τ : Type} {policy : Policy ρ} {rule : TerminationRule τ} {base : Store}
  {goal : SearchGoal} {s s' t : Search ρ τ} {found : Option Solution}

/-! ## What is known of a waning search -/

theorem Waning.at_selecting {d n : Nat} (h : Waning base d n s)
    (hphase : s.control.phase = .selecting) : Amid base s ∧ s.store.Drained := by
  cases h with
  | selecting _ amid _ _ drained => exact ⟨amid, drained⟩
  | propagating other => cases other.symm.trans hphase
  | branching other => cases other.symm.trans hphase
  | backtracking other => cases other.symm.trans hphase
  | exhausted other => cases other.symm.trans hphase

theorem Waning.at_backtracking {d n : Nat} (h : Waning base d n s)
    (hphase : s.control.phase = .backtracking) :
    Amid base s ∧ Ladder base (Branched base d n) s.store.domains s.control.stack := by
  cases h with
  | backtracking _ amid ladder => exact ⟨amid, ladder⟩
  | propagating other => cases other.symm.trans hphase
  | selecting other => cases other.symm.trans hphase
  | branching other => cases other.symm.trans hphase
  | exhausted other => cases other.symm.trans hphase

/-! ## Stores that have failed -/

/-- A search that can only find out that the store has failed, and give up. -/
inductive Doomed (s : Search ρ τ) : Prop
  | propagating (phase : s.control.phase = .propagating) (failed : s.store.failure ≠ none)
      (stack : s.control.stack = [])
  | backtracking (phase : s.control.phase = .backtracking) (stack : s.control.stack = [])
  | exhausted (phase : s.control.phase = .exhausted)

/-- **IN A FAILED STORE** every step leads to the end, and finds nothing. -/
theorem Doomed.step (h : Doomed s) (hok : s.step policy rule = (.ok found, t)) :
    Doomed t ∧ found = none := by
  obtain ⟨c, store⟩ := s
  rw [Search.step] at hok
  cases h with
  | propagating phase failed stack =>
      -- the first propagation fails, and there is no choice point to go back to
      obtain ⟨why, hwhy⟩ := Option.ne_none_iff_exists'.mp failed
      rw [phase] at hok
      simp only [propagate_of_error (propagate_of_failed hwhy)] at hok
      cases hok
      exact ⟨.backtracking rfl stack, rfl⟩
  | backtracking phase stack =>
      have hstack : c.stack = [] := stack
      rw [phase] at hok
      have hback := of_silently hok
      rw [Search.backtrack] at hback
      simp only [hstack, undoTrial] at hback
      exact ⟨.exhausted (finish_ok hback).1, found_of_silently hok⟩
  | exhausted phase =>
      rw [phase] at hok
      cases hok
      exact ⟨.exhausted phase, rfl⟩

variable (policy rule) in
/-- A search of a store that has failed goes well. -/
theorem Doomed.goesWell {d n : Nat} (h : Doomed s) (hwaning : Waning base d n s) :
    GoesWell (s.step policy rule) := by
  obtain ⟨c, store⟩ := s
  rw [Search.step]
  cases h with
  | propagating phase failed stack =>
      obtain ⟨why, hwhy⟩ := Option.ne_none_iff_exists'.mp failed
      rw [phase]
      simp only [propagate_of_error (propagate_of_failed hwhy)]
      exact ⟨none, _, rfl, .of_ne (by rintro ⟨⟩)⟩
  | backtracking phase stack =>
      rw [phase]
      obtain ⟨amid, ladder⟩ := hwaning.at_backtracking phase
      exact goesWell_silently (goesWell_backtrack amid ladder)
  | exhausted phase =>
      rw [phase]
      refine ⟨none, _, rfl, .of_ne fun other => ?_⟩
      cases other.symm.trans phase

/-! ## The invariant -/

/-- **A SECURE SEARCH**: the steps that are left can be counted, there is something to try
    when something is to be tried, and in a failed store the search is about to end. -/
structure Secure (base : Store) (goal : SearchGoal) (s : Search ρ τ) : Prop where
  aim : s.control.goal = goal
  waning : Waning base (largestSize base) base.variableCount s
  offers : Offers s
  doomed : base.failure ≠ none → Doomed s

theorem secure_of_exhausted (haim : s.control.goal = goal) (hphase : s.control.phase = .exhausted) :
    Secure base goal s :=
  ⟨haim, .exhausted hphase, .of_ne (fun h => nomatch hphase.symm.trans h),
    fun _ => .exhausted hphase⟩

/-- A search stays secure when its condition changes. -/
theorem Secure.changed (h : Secure base goal s) (termination : τ) :
    Secure base goal ⟨{ s.control with termination := termination }, s.store⟩ := by
  have hwaning := waning_unhindered.mpr h.waning
  refine ⟨h.aim, waning_unhindered.mp hwaning, h.offers, fun hf => ?_⟩
  cases h.doomed hf with
  | propagating phase failed stack => exact .propagating phase failed stack
  | backtracking phase stack => exact .backtracking phase stack
  | exhausted phase => exact .exhausted phase

/-- A search stays secure when it is asked for its summary. -/
theorem Secure.summarized {summary : SearchSummary} (h : Secure base goal s)
    (hsummary : s.summarize = (.ok summary, t)) : Secure base goal t := by
  rcases summarize_cases hsummary with rfl | hfinish
  · exact h
  · obtain ⟨hphase, _, _, hgoal⟩ := finish_ok hfinish
    exact secure_of_exhausted (hgoal.trans h.aim) hphase

/-- What is begun is secure. -/
theorem secure_of_launched {random : ρ} {termination : τ} (hbegun : Begun base goal s)
    (hlaunched : Launched base goal random termination s) (hst : base.domains.Stamped)
    (htidy : base.Tidy) : Secure base goal s := by
  refine ⟨hlaunched.aim, (hlaunched.timely hst htidy).waning, ?_, fun hf => ?_⟩
  · cases hbegun with
    | underway phase => exact .of_ne fun h => nomatch phase.symm.trans h
    | ended phase => exact .of_ne fun h => nomatch phase.symm.trans h
  · cases hbegun with
    | underway phase _ _ stack remembers =>
        exact .propagating phase (remembers.failure ▸ hf) stack
    | ended phase => exact .exhausted phase

/-- What is asked of a policy and of the scope. -/
structure Cared (policy : Policy ρ) (base : Store) (scope : List Variable) : Prop where
  careful : policy.Careful
  unfixed : policy.ChoosesUnfixed
  owned : ∀ v ∈ scope, base.owns v = true
  valued : base.failure = none → ∀ v ∈ scope, ∃ x, x ∈ base.domain v

variable (hcared : Cared policy base goal.scope)
include hcared

variable (rule) in
/-- **A STEP** of a secure search goes well, and leads to a secure search. -/
theorem Secure.step (h : Secure base goal s) :
    ∃ found t, s.step policy rule = (.ok found, t) ∧ Secure base goal t := by
  obtain ⟨found, t, hstep, hoffers⟩ : GoesWell (s.step policy rule) := by
    cases hf : base.failure with
    | none =>
        refine h.waning.step_ok rule h.offers hcared.careful ?_ ?_
        · exact h.aim ▸ hcared.owned
        · exact h.aim ▸ hcared.valued hf
    | some why => exact (h.doomed (by simp [hf])).goesWell policy rule h.waning
  refine ⟨found, t, hstep, (steady_step hstep).goal.trans h.aim, ?_, hoffers,
    fun hf => ((h.doomed hf).step hstep).1⟩
  by_cases hphase : s.control.phase = .exhausted
  · rw [Search.step, hphase] at hstep
    cases hstep
    exact h.waning
  · exact (h.waning.step hcared.unfixed hphase hstep).1

variable (rule) in
/-- A run does, too. -/
theorem Secure.run (steps : Nat) (h : Secure base goal s) :
    ∃ answer t, Search.run policy rule steps s = (.ok answer, t) ∧ Secure base goal t := by
  induction steps generalizing s with
  | zero => exact ⟨_, s, rfl, h⟩
  | succ steps ih =>
      rw [Search.run]
      split
      · exact ⟨_, s, rfl, h⟩
      · obtain ⟨found, t, hstep, ht⟩ := h.step rule hcared
        rw [hstep]
        cases found with
        | some x => exact ⟨_, t, rfl, ht⟩
        | none => exact ih ht

/-- **EVERY COURSE** keeps a search secure. -/
theorem Course.secure {begun : Search ρ τ} {reported : List Solution} {opened : Nat}
    (hbegun : Secure base goal begun) (h : Course policy rule begun reported opened s) :
    Secure base goal s := by
  induction h with
  | begun => exact hbegun
  | moved _ move ih =>
      obtain ⟨_, _, hstep, ht⟩ := ih.step rule hcared
      rw [move] at hstep
      cases hstep
      exact ht
  | changed termination _ ih => exact ih.changed termination
  | summarized _ hsummary ih => exact ih.summarized hsummary

end Search

end ConstraintSolver
