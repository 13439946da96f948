import ConstraintSolver.Proofs.Ending
import ConstraintSolver.Proofs.Sessions

/-! # Moves — what a step of a search can do

    A step that goes well does one of a few things, depending on the phase
    (`Moves`).  What is claimed of every step is shown move by move, without
    looking at the code of the step again.

    A search that is used goes from move to move; in between its termination
    condition may be changed from outside, and it may be ended (`Course`).
    On the way the choice points are counted that are opened.  Every session
    is such a course (`Session.course`), so what holds on every course holds
    between any two calls. -/

namespace ConstraintSolver

open Constraint Store

namespace Search

variable {ρ τ : Type}

/-! ## Moves -/

/-- The control after the termination condition has been asked and a value has been
    chosen. -/
def drawn (rule : TerminationRule τ) (c : SearchControl ρ τ) (random : ρ) : SearchControl ρ τ :=
  { asked rule c with random := random }

/-- **THE MOVES** of a search: from which state, what is found, and to which state. -/
inductive Moves (policy : Policy ρ) (rule : TerminationRule τ) :
    Search ρ τ → Option Solution → Search ρ τ → Prop
  | propagated {c : SearchControl ρ τ} {t u : Store} (phase : c.phase = .propagating)
      (run : t.propagate = (.ok (), u)) :
      Moves policy rule ⟨c, t⟩ none ⟨c.goTo .selecting, u⟩
  | inconsistent {c : SearchControl ρ τ} {t u : Store} {why : Inconsistency}
      (phase : c.phase = .propagating) (run : t.propagate = (.error why, u)) :
      Moves policy rule ⟨c, t⟩ none ⟨c.failed, u.note (.propagationFailed why)⟩
  /-- The termination condition ends the search. -/
  | stopped {c : SearchControl ρ τ} {t : Store} {s : Search ρ τ}
      (phase : c.phase = .selecting ∨ c.phase = .branching)
      (stop : (rule.shouldStop c.termination).1 = true)
      (finished : finish ⟨asked rule c, t⟩ .terminated = (.ok (), s)) :
      Moves policy rule ⟨c, t⟩ none s
  /-- A choice point is opened. -/
  | opened {c : SearchControl ρ τ} {t : Store} {v : Variable} (phase : c.phase = .selecting)
      (chosen : policy.chooseVariable t c.goal.scope = .ok (some v)) (owned : t.owns v = true) :
      Moves policy rule ⟨c, t⟩ none ⟨(asked rule c).opened v (t.domain v), t⟩
  /-- The scope is fixed, and cannot be completed. -/
  | incomplete {c : SearchControl ρ τ} {t u : Store} (phase : c.phase = .selecting)
      (chosen : policy.chooseVariable t c.goal.scope = .ok none)
      (check : t.hasCompletion = (.ok false, u)) :
      Moves policy rule ⟨c, t⟩ none ⟨(asked rule c).failed, u.note .noCompletion⟩
  | reported {c : SearchControl ρ τ} {t u : Store} {x : Solution} (phase : c.phase = .selecting)
      (chosen : policy.chooseVariable t c.goal.scope = .ok none)
      (check : t.hasCompletion = (.ok true, u))
      (read : readSolution u c.goal.scope = .ok x.entries) :
      Moves policy rule ⟨c, t⟩ (some x)
        ⟨(counted (asked rule c)).goTo .backtracking,
          u.note (.solution (c.statistics.solutions + 1) x)⟩
  /-- The solution is the last one that is asked for. -/
  | reportedLast {c : SearchControl ρ τ} {t u : Store} {x : Solution} {s : Search ρ τ}
      (phase : c.phase = .selecting) (chosen : policy.chooseVariable t c.goal.scope = .ok none)
      (check : t.hasCompletion = (.ok true, u))
      (read : readSolution u c.goal.scope = .ok x.entries)
      (finished : finish ⟨counted (asked rule c),
        u.note (.solution (c.statistics.solutions + 1) x)⟩ .solutionLimitReached = (.ok (), s)) :
      Moves policy rule ⟨c, t⟩ (some x) s
  /-- There is no choice point to branch on. -/
  | unopened {c : SearchControl ρ τ} {t : Store} (phase : c.phase = .branching)
      (stack : c.stack = []) :
      Moves policy rule ⟨c, t⟩ none ⟨(asked rule c).goTo .backtracking, t⟩
  /-- A candidate is tried. -/
  | tried {c : SearchControl ρ τ} {t u : Store} {choice : ChoicePoint}
      {older : List ChoicePoint} {value : Int} {random : ρ} (phase : c.phase = .branching)
      (stack : c.stack = choice :: older)
      (chosen : policy.chooseValue t choice.var choice.remaining c.random = .ok (value, random))
      (candidate : value ∈ choice.remaining)
      (assigned : (t.snapshot.2.note (.decision choice.var value (older.length + 1))).assign
        choice.var value = (.ok (), u)) :
      Moves policy rule ⟨c, t⟩ none
        ⟨(decided rule (drawn rule c random) choice older value t.snapshot.1).goTo .propagating, u⟩
  /-- The store refuses a candidate. -/
  | refused {c : SearchControl ρ τ} {t u : Store} {choice : ChoicePoint}
      {older : List ChoicePoint} {value : Int} {random : ρ} {why : UpdateError}
      (phase : c.phase = .branching) (stack : c.stack = choice :: older)
      (chosen : policy.chooseValue t choice.var choice.remaining c.random = .ok (value, random))
      (candidate : value ∈ choice.remaining)
      (assigned : (t.snapshot.2.note (.decision choice.var value (older.length + 1))).assign
        choice.var value = (.error why, u)) :
      Moves policy rule ⟨c, t⟩ none
        ⟨(decided rule (drawn rule c random) choice older value t.snapshot.1).failed, u⟩
  /-- Back to a choice point with candidates. -/
  | resumed {c : SearchControl ρ τ} {t u : Store} {choice : ChoicePoint}
      {older : List ChoicePoint} (phase : c.phase = .backtracking)
      (undone : undoTrial t c.stack = (.ok (choice :: older), u)) :
      Moves policy rule ⟨c, t⟩ none ⟨resumed c (choice :: older), u⟩
  /-- No choice point has candidates left. -/
  | completed {c : SearchControl ρ τ} {t u : Store} {s : Search ρ τ}
      (phase : c.phase = .backtracking) (undone : undoTrial t c.stack = (.ok [], u))
      (finished : finish ⟨{ c with stack := [] }, u⟩ .complete = (.ok (), s)) :
      Moves policy rule ⟨c, t⟩ none s
  | exhausted {s : Search ρ τ} (phase : s.control.phase = .exhausted) : Moves policy rule s none s

variable {policy : Policy ρ} {rule : TerminationRule τ} {c : SearchControl ρ τ} {t : Store}
  {s s' : Search ρ τ} {found : Option Solution}

/-- Propagation is a move that reports nothing. -/
theorem moves_propagate (phase : c.phase = .propagating) :
    Moves policy rule ⟨c, t⟩ none (Search.propagate ⟨c, t⟩) := by
  cases hprop : t.propagate with
  | mk result u =>
      cases result with
      | ok _ =>
          rw [Search.propagate_of_ok hprop]
          exact .propagated phase hprop
      | error why =>
          rw [propagate_of_error hprop]
          exact .inconsistent phase hprop

/-- Reporting is a move that finds a solution, once the scope is fixed and can be completed. -/
theorem moves_report {u : Store} (phase : c.phase = .selecting)
    (chosen : policy.chooseVariable t c.goal.scope = .ok none)
    (check : t.hasCompletion = (.ok true, u))
    (hok : Search.report ⟨asked rule c, u⟩ = (.ok found, s')) :
    Moves policy rule ⟨c, t⟩ found s' := by
  have hscope : (asked rule c).goal.scope = c.goal.scope := rfl
  cases hread : readSolution u c.goal.scope with
  | error e =>
      rw [Search.report] at hok
      simp only [hscope, hread] at hok
      cases hok
  | ok entries =>
      rw [report_eq (c := asked rule c) (x := ⟨entries⟩) hread] at hok
      split at hok
      · split at hok
        · cases hok
        · rename_i hfinish
          cases hok
          exact .reportedLast phase chosen check hread hfinish
      · cases hok
        exact .reported phase chosen check hread

/-- Whatever comes out of selecting is a move. -/
theorem moves_select (phase : c.phase = .selecting)
    (hok : Search.select policy ⟨asked rule c, t⟩ = (.ok found, s')) :
    Moves policy rule ⟨c, t⟩ found s' := by
  rw [Search.select] at hok
  split at hok
  · cases hok
  · rename_i v hchosen
    split at hok
    · rename_i howned
      cases hok
      exact .opened phase hchosen howned
    · cases hok
  · rename_i hchosen
    split at hok
    · cases hok
    · rename_i u hcheck
      exact moves_report phase hchosen hcheck hok
    · rename_i u hcheck
      cases hok
      exact .incomplete phase hchosen hcheck

/-- Trying a value is a move that reports nothing. -/
theorem moves_branch (phase : c.phase = .branching)
    (hok : Search.branch policy rule ⟨asked rule c, t⟩ = (.ok (), s')) :
    Moves policy rule ⟨c, t⟩ none s' := by
  rcases branch_ok hok with ⟨hnil, rfl⟩ | ⟨choice, older, value, random, htries, rfl⟩
  · exact .unopened phase hnil
  · rw [decide_eq]
    cases hassign : (t.snapshot.2.note
        (.decision choice.var value (older.length + 1))).assign choice.var value with
    | mk result u =>
        cases result with
        | ok _ => exact .tried phase htries.stack htries.chosen htries.candidate hassign
        | error why => exact .refused phase htries.stack htries.chosen htries.candidate hassign

/-- Going back is a move that reports nothing. -/
theorem moves_backtrack (phase : c.phase = .backtracking)
    (hok : Search.backtrack ⟨c, t⟩ = (.ok (), s')) : Moves policy rule ⟨c, t⟩ none s' := by
  rw [Search.backtrack] at hok
  split at hok
  · cases hok
  · rename_i hundo
    exact .completed phase hundo hok
  · rename_i hundo
    cases hok
    exact .resumed phase hundo

theorem found_of_silently {r : Except Misuse Unit × Search ρ τ}
    (h : silently r = (.ok found, s')) : found = none := by
  obtain ⟨result, s⟩ := r
  cases result with
  | error e => cases h
  | ok _ =>
      cases h
      rfl

/-- Asking the termination condition may end the search. -/
theorem moves_unlessStopped (phase : c.phase = .selecting ∨ c.phase = .branching)
    {go : Search ρ τ → Except Misuse (Option Solution) × Search ρ τ}
    (hgo : go ⟨asked rule c, t⟩ = (.ok found, s') → Moves policy rule ⟨c, t⟩ found s')
    (hok : unlessStopped rule ⟨c, t⟩ go = (.ok found, s')) :
    Moves policy rule ⟨c, t⟩ found s' := by
  rw [unlessStopped] at hok
  split at hok
  · rename_i termination hstop
    have hasked : { c with termination := termination } = asked rule c := by
      rw [asked, hstop]
    rw [hasked] at hok
    cases found_of_silently hok
    exact .stopped phase (congrArg Prod.fst hstop) (of_silently hok)
  · rename_i termination hstop
    have hasked : { c with termination := termination } = asked rule c := by
      rw [asked, hstop]
    rw [hasked] at hok
    exact hgo hok

/-- **A STEP** that goes well is one of the moves. -/
theorem step_moves (hok : s.step policy rule = (.ok found, s')) :
    Moves policy rule s found s' := by
  obtain ⟨c, t⟩ := s
  rw [Search.step] at hok
  split at hok
  · rename_i phase
    cases hok
    exact moves_propagate phase
  · rename_i phase
    exact moves_unlessStopped (.inl phase) (moves_select phase) hok
  · rename_i phase
    refine moves_unlessStopped (.inr phase) (fun hgo => ?_) hok
    cases found_of_silently hgo
    exact moves_branch phase (of_silently hgo)
  · rename_i phase
    cases found_of_silently hok
    exact moves_backtrack phase (of_silently hok)
  · rename_i phase
    cases hok
    exact .exhausted phase

/-! ## Ends -/

/-- The control of a search that is over, with the runs of constraints counted. -/
def ended (c : SearchControl ρ τ) (status : SearchStatus) (runs : Nat) : SearchControl ρ τ :=
  { c with
    stack := []
    root := none
    statistics := { c.statistics with propagations := runs }
    status := some status
    phase := .exhausted }

theorem control_of_finish {status : SearchStatus} (h : finish ⟨c, t⟩ status = (.ok (), s)) :
    ∃ runs, s.control = ended c status runs := by
  rw [finish] at h
  split at h
  · cases h
  · cases h
    exact ⟨_, rfl⟩

/-- A search that is begun has not done anything yet, or is over at once. -/
theorem control_of_begin {goal : SearchGoal} {random : ρ} {termination : τ}
    (h : begin goal random termination t = (.ok (), s)) :
    ∃ saved u, s.control = opening goal random termination saved u ∨
      ∃ runs, s.control =
        ended (opening goal random termination saved u) .solutionLimitReached runs := by
  rw [begin_eq goal random termination t rfl] at h
  split at h
  · exact ⟨_, _, .inr (control_of_finish h)⟩
  · cases h
    exact ⟨_, _, .inl rfl⟩

theorem control_of_start {goal : SearchGoal} {random : ρ} {termination : τ} {base : Store}
    (h : start goal random termination base = .ok s) :
    ∃ saved u, s.control = opening goal random termination saved u ∨
      ∃ runs, s.control =
        ended (opening goal random termination saved u) .solutionLimitReached runs := by
  rw [start] at h
  split at h
  · cases h
  · simp only at h
    split at h
    · cases h
    · rename_i hbegin
      cases h
      exact control_of_begin hbegin

/-- Ending a search that is over does nothing. -/
theorem summarize_cases {summary : SearchSummary} (h : s.summarize = (.ok summary, s')) :
    s' = s ∨ s.finish .terminated = (.ok (), s') := by
  rw [Search.summarize] at h
  split at h
  · cases h
    exact .inl rfl
  · split at h
    · cases h
    · rename_i hfinish
      cases h
      exact .inr hfinish

/-! ## Courses -/

/-- **A COURSE** of a search, with the solutions found and the number of choice points
    opened on the way. A move opens as many as the stack grows by. -/
inductive Course (policy : Policy ρ) (rule : TerminationRule τ) (begun : Search ρ τ) :
    List Solution → Nat → Search ρ τ → Prop
  | begun : Course policy rule begun [] 0 begun
  | moved {reported : List Solution} {opened : Nat} {s t : Search ρ τ} {found : Option Solution}
      (course : Course policy rule begun reported opened s)
      (move : s.step policy rule = (.ok found, t)) :
      Course policy rule begun (reported ++ found.toList)
        (opened + (t.control.stack.length - s.control.stack.length)) t
  /-- The termination condition changes from outside. -/
  | changed {reported : List Solution} {opened : Nat} {s : Search ρ τ} (termination : τ)
      (course : Course policy rule begun reported opened s) :
      Course policy rule begun reported opened
        ⟨{ s.control with termination := termination }, s.store⟩
  /-- The search is ended. -/
  | summarized {reported : List Solution} {opened : Nat} {s t : Search ρ τ}
      {summary : SearchSummary} (course : Course policy rule begun reported opened s)
      (summary : s.summarize = (.ok summary, t)) : Course policy rule begun reported opened t

variable {begun : Search ρ τ} {reported : List Solution} {opened : Nat}

/-- A run leads from one moment of the course to another, with its answer appended. -/
theorem Course.run (h : Course policy rule begun reported opened s) {steps : Nat}
    {answer : Answer} (hok : Search.run policy rule steps s = (.ok answer, s')) :
    ∃ opened, Course policy rule begun (reported ++ answer.solutions) opened s' := by
  replace hok := ran_of_run hok
  induction hok generalizing reported opened with
  | ended =>
      rw [solutions_finalAnswer, List.append_nil]
      exact ⟨opened, h⟩
  | found _ step => exact ⟨_, h.moved step⟩
  | silent _ step _ ih =>
      have hmoved := h.moved step
      rw [Option.toList_none, List.append_nil] at hmoved
      exact ih hmoved

/-- **EVERY SESSION** is a course. -/
theorem Session.course (h : Session policy rule begun reported s) :
    ∃ opened, Course policy rule begun reported opened s := by
  induction h with
  | begun => exact ⟨0, .begun⟩
  | next _ hnext ih =>
      obtain ⟨opened, hcourse⟩ := ih
      exact hcourse.run hnext
  | changed termination _ ih =>
      obtain ⟨opened, hcourse⟩ := ih
      exact ⟨opened, hcourse.changed termination⟩
  | summarized _ hsummary ih =>
      obtain ⟨opened, hcourse⟩ := ih
      exact ⟨opened, hcourse.summarized hsummary⟩

end Search

end ConstraintSolver
