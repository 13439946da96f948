import ConstraintSolver.Proofs.Ladder

/-! # Returning — a search can be left at any time

    Whatever policy and termination condition a search follows, and in
    whatever state it was begun, its store stays on the ladder of its choice
    points (`Standing`).  So the search can be ended or given up after any
    number of steps, and the store is then as it was before (`Standing.release`). -/

namespace ConstraintSolver

open Constraint Store

namespace Search

variable {ρ τ : Type}

/-- Nothing in particular is known about the rungs. -/
abbrev Climbs (base : Store) (D : Domains) (stack : List ChoicePoint) : Prop :=
  Ladder base (fun _ _ => True) D stack

/-- The search stands on the ladder, or is over and has returned. -/
inductive Standing (base : Store) (s : Search ρ τ) : Prop
  | moving (phase : s.control.phase = .propagating ∨ s.control.phase = .backtracking)
      (amid : Amid base s) (ladder : Climbs base s.store.domains s.control.stack)
  | selecting (phase : s.control.phase = .selecting) (amid : Amid base s)
      (ladder : Climbs base s.store.domains s.control.stack)
      (sane : s.store.failure = none)
  | branching {choice : ChoicePoint} {older : List ChoicePoint}
      (phase : s.control.phase = .branching) (amid : Amid base s)
      (stack : s.control.stack = choice :: older) (untried : choice.saved = none)
      (ladder : Climbs base s.store.domains older) (sane : s.store.failure = none)
  | exhausted (phase : s.control.phase = .exhausted) (root : s.control.root = none)
      (ended : s.control.status ≠ none) (returned : Returned base s.store)

variable {base : Store} {s s' : Search ρ τ} {c : SearchControl ρ τ} {t u : Store}
  {stack : List ChoicePoint}

/-- A search on the ladder can be ended, and returns to its root. -/
theorem finish_standing (h : Amid base ⟨c, t⟩) (hladder : Climbs base t.domains stack)
    (status : SearchStatus) :
    ∃ s : Search ρ τ, finish ⟨c, t⟩ status = (.ok (), s) ∧ Standing base s := by
  obtain ⟨s, hs, hphase, hroot, hstatus, _, hreturned⟩ := finish_returns h hladder status
  exact ⟨s, hs, .exhausted hphase hroot (by simp [hstatus]) hreturned⟩

/-! ## Steps -/

/-- Propagation stays on the ladder. -/
theorem Standing.propagate (amid : Amid base ⟨c, t⟩) (hladder : Climbs base t.domains c.stack) :
    Standing base (Search.propagate ⟨c, t⟩) := by
  have hev := evolves_propagate t
  unfold Search.propagate
  cases hprop : t.propagate with
  | mk result u =>
      rw [hprop] at hev
      simp only [hprop]
      have hmodel := amid.model.trans hev.toSameModel
      have hst := hev.retraces.stamped amid.stamped
      have hladder' := (hladder.retraces amid.stamped hev.retraces).1
      cases result with
      | ok _ =>
          obtain ⟨hf, _, rfl⟩ := propagate_ok hprop
          exact .selecting rfl (amid.of_store hmodel hst rfl rfl) hladder'
            ((failure_work t none).trans hf)
      | error why =>
          have hmodel' := hmodel.trans (evolves_note u (.propagationFailed why)).toSameModel
          exact .moving (.inr rfl) (amid.of_store hmodel' hst rfl rfl) hladder'

/-- A decision leads further down, also if the value cannot be assigned. -/
theorem Standing.decide (rule : TerminationRule τ) {choice : ChoicePoint}
    {older : List ChoicePoint} (amid : Amid base ⟨c, t⟩) (hladder : Climbs base t.domains older)
    (hf : t.failure = none) (value : Int) :
    Standing base (Search.decide rule ⟨c, t⟩ choice older value) := by
  have hev := evolves_assign (t.snapshot.2.note (.decision choice.var value (older.length + 1)))
    choice.var value
  rw [decide_eq]
  cases hassign : (t.snapshot.2.note (.decision choice.var value (older.length + 1))).assign
      choice.var value with
  | mk result u =>
      rw [hassign] at hev
      obtain ⟨hmodel, hst, hladder', _⟩ :=
        ladder_decided amid.model amid.stamped hf hladder rule c True.intro hev
      -- the trial is on the ladder already, so a value that is refused can be undone
      cases result with
      | ok _ => exact .moving (.inl rfl) (amid.of_store hmodel hst rfl rfl) hladder'
      | error e => exact .moving (.inr rfl) (amid.of_store hmodel hst rfl rfl) hladder'

/-- Trying a candidate stays on the ladder. -/
theorem Standing.branch {policy : Policy ρ} (rule : TerminationRule τ) {choice : ChoicePoint}
    {older : List ChoicePoint} (amid : Amid base ⟨c, t⟩) (hstack : c.stack = choice :: older)
    (hladder : Climbs base t.domains older) (hf : t.failure = none)
    (hok : Search.branch policy rule ⟨c, t⟩ = (.ok (), s')) : Standing base s' := by
  rcases branch_ok hok with ⟨hnil, _⟩ | ⟨_, _, value, random, htries, rfl⟩
  · cases hstack.symm.trans hnil
  · cases hstack.symm.trans htries.stack
    refine Standing.decide rule ?_ hladder hf _
    exact amid.of_store amid.model amid.stamped rfl rfl

/-- A search that reports a solution stays on the ladder, or returns. -/
theorem Standing.report (amid : Amid base ⟨c, t⟩) (hladder : Climbs base t.domains c.stack)
    {found : Option Solution} (hok : Search.report ⟨c, t⟩ = (.ok found, s')) :
    Standing base s' := by
  have hmodel : ∀ e, SameModel base (t.note e) := fun e =>
    amid.model.trans (evolves_note t e).toSameModel
  cases hread : readSolution t c.goal.scope with
  | error e =>
      rw [Search.report] at hok
      simp only [hread] at hok
      cases hok
  | ok entries =>
      rw [report_eq (x := ⟨entries⟩) hread] at hok
      split at hok
      · obtain ⟨s, hs, hstanding⟩ := finish_standing (c := counted c)
          (amid.of_store (hmodel _) amid.stamped rfl rfl) hladder .solutionLimitReached
        rw [hs] at hok
        cases hok
        exact hstanding
      · cases hok
        exact .moving (.inr rfl) (amid.of_store (hmodel _) amid.stamped rfl rfl) hladder

/-- A search that selects a variable stays on the ladder, or returns. -/
theorem Standing.select {policy : Policy ρ} (amid : Amid base ⟨c, t⟩)
    (hladder : Climbs base t.domains c.stack) (hf : t.failure = none) {found : Option Solution}
    (hok : Search.select policy ⟨c, t⟩ = (.ok found, s')) : Standing base s' := by
  obtain ⟨held, u, hcomplete, hev, hfailure⟩ := undoes_hasCompletion t amid.stamped
  have hmodel := amid.model.trans hev.toSameModel
  have hst := hev.retraces.stamped amid.stamped
  have hladder' := (hladder.retraces amid.stamped hev.retraces).1
  -- whether or not there is a completion, looking for one leads nowhere else
  rw [Search.select] at hok
  simp only [hcomplete] at hok
  split at hok
  · cases hok
  · split at hok
    · cases hok
      exact .branching rfl (amid.of_store amid.model amid.stamped rfl rfl) rfl rfl hladder hf
    · cases hok
  · cases held with
    | true => exact Standing.report (amid.of_store hmodel hst rfl rfl) hladder' hok
    | false =>
        cases hok
        have hmodel' := hmodel.trans (evolves_note u .noCompletion).toSameModel
        exact .moving (.inr rfl) (amid.of_store hmodel' hst rfl rfl) hladder'

/-- Going back stays on the ladder, or leaves it at its root. -/
theorem Standing.backtrack (amid : Amid base ⟨c, t⟩)
    (hladder : Climbs base t.domains c.stack)
    (hok : Search.backtrack ⟨c, t⟩ = (.ok (), s')) : Standing base s' := by
  rw [Search.backtrack] at hok
  rcases undoTrial_climbs (R := fun _ => True) (fun _ _ _ => True.intro) c.stack amid.model
      amid.stamped hladder True.intro with
    ⟨u, hundo, hmodel, hst, hladder', _⟩ | ⟨choice, older, u, hundo, _, hclimbed, _⟩
  · have hamid : Amid base ⟨{ c with stack := [] }, u⟩ := amid.of_store hmodel hst rfl rfl
    obtain ⟨s, hs, hstanding⟩ := finish_standing hamid hladder' .complete
    simp only [hundo] at hok
    rw [hs] at hok
    cases hok
    exact hstanding
  · simp only [hundo] at hok
    cases hok
    exact .branching rfl (amid.of_store hclimbed.model hclimbed.stamped rfl rfl) rfl rfl
      hclimbed.below hclimbed.failure

/-- What goes on after the termination condition has been asked keeps the search on
    the ladder. -/
theorem standing_unlessStopped (rule : TerminationRule τ) (amid : Amid base ⟨c, t⟩)
    (hladder : Climbs base t.domains stack)
    {go : Search ρ τ → Except Misuse (Option Solution) × Search ρ τ} {found : Option Solution}
    (hgo : ∀ termination, go ⟨{ c with termination := termination }, t⟩ = (.ok found, s') →
      Standing base s')
    (hok : unlessStopped rule ⟨c, t⟩ go = (.ok found, s')) : Standing base s' := by
  rw [unlessStopped] at hok
  cases hstop : rule.shouldStop c.termination with
  | mk stop termination =>
      simp only [hstop] at hok
      cases stop with
      | true =>
          obtain ⟨s, hs, hstanding⟩ :=
            finish_standing (amid.changed termination) hladder .terminated
          simp only [hs] at hok
          cases hok
          exact hstanding
      | false => exact hgo termination hok

/-- A silent step that goes well is the action that it takes. -/
theorem of_silently {r : Except Misuse Unit × Search ρ τ} {found : Option Solution}
    (h : silently r = (.ok found, s')) : r = (.ok (), s') := by
  obtain ⟨result, s⟩ := r
  cases result with
  | error e => cases h
  | ok _ =>
      cases h
      rfl

/-- **A STEP** that goes well stays on the ladder, or returns. -/
theorem Standing.step {policy : Policy ρ} {rule : TerminationRule τ} (h : Standing base s)
    {found : Option Solution} (hok : s.step policy rule = (.ok found, s')) :
    Standing base s' := by
  obtain ⟨c, t⟩ := s
  rw [Search.step] at hok
  cases h with
  | moving phase amid ladder =>
      rcases phase with phase | phase
      · rw [phase] at hok
        cases hok
        exact Standing.propagate amid ladder
      · rw [phase] at hok
        exact Standing.backtrack amid ladder (of_silently hok)
  | selecting phase amid ladder sane =>
      rw [phase] at hok
      refine standing_unlessStopped rule amid ladder (fun termination hgo => ?_) hok
      exact Standing.select (amid.changed termination) ladder sane hgo
  | branching phase amid stack untried ladder sane =>
      rw [phase] at hok
      refine standing_unlessStopped rule amid ladder (fun termination hgo => ?_) hok
      exact Standing.branch rule (amid.changed termination) stack ladder sane (of_silently hgo)
  | exhausted phase root ended returned =>
      rw [phase] at hok
      cases hok
      exact .exhausted phase root ended returned

/-! ## Runs -/

/-- How a run comes to its answer: it has come to its end, or takes a step, which finds a
    solution or is followed by the rest of the run. -/
inductive Ran (policy : Policy ρ) (rule : TerminationRule τ) :
    Nat → Search ρ τ → Answer → Search ρ τ → Prop
  | ended {steps : Nat} {s : Search ρ τ} (done : steps = 0 ∨ s.control.phase = .exhausted) :
      Ran policy rule steps s s.control.finalAnswer s
  | found {steps : Nat} {s t : Search ρ τ} {x : Solution} (going : s.control.phase ≠ .exhausted)
      (step : s.step policy rule = (.ok (some x), t)) :
      Ran policy rule (steps + 1) s (.solution x) t
  | silent {steps : Nat} {s t u : Search ρ τ} {answer : Answer}
      (going : s.control.phase ≠ .exhausted) (step : s.step policy rule = (.ok none, t))
      (rest : Ran policy rule steps t answer u) : Ran policy rule (steps + 1) s answer u

/-- Every run that goes well has come to its answer in this way. -/
theorem ran_of_run {policy : Policy ρ} {rule : TerminationRule τ} {steps : Nat} {answer : Answer}
    (hok : Search.run policy rule steps s = (.ok answer, s')) :
    Ran policy rule steps s answer s' := by
  induction steps generalizing s with
  | zero =>
      cases hok
      exact .ended (.inl rfl)
  | succ steps ih =>
      rw [Search.run] at hok
      split at hok
      · rename_i hover
        cases hok
        exact .ended (.inr hover)
      · rename_i hgoing
        split at hok
        · cases hok
        · rename_i hstep
          cases hok
          exact .found hgoing hstep
        · rename_i hstep
          exact .silent hgoing hstep (ih hok)

/-- A run that goes well stays on the ladder, or returns. -/
theorem Standing.run {policy : Policy ρ} {rule : TerminationRule τ} (steps : Nat)
    (h : Standing base s) {answer : Answer}
    (hok : Search.run policy rule steps s = (.ok answer, s')) : Standing base s' := by
  replace hok := ran_of_run hok
  induction hok with
  | ended => exact h
  | found _ step => exact h.step step
  | silent _ step _ ih => exact ih (h.step step)

/-! ## The end -/

/-- A search that is summed up has returned. -/
theorem Standing.summarize (h : Standing base s) {summary : SearchSummary}
    (hok : s.summarize = (.ok summary, s')) : Standing base s' := by
  obtain ⟨c, t⟩ := s
  have hend : ∀ {stack}, Amid base ⟨c, t⟩ → Climbs base t.domains stack → Standing base s' := by
    intro stack amid hladder
    obtain ⟨s, hs, hstanding⟩ := finish_standing amid hladder .terminated
    have hstatus : c.status = none := amid.status
    rw [Search.summarize] at hok
    simp only [hstatus, hs] at hok
    cases hok
    exact hstanding
  cases h with
  | moving phase amid ladder => exact hend amid ladder
  | selecting phase amid ladder sane => exact hend amid ladder
  | branching phase amid stack untried ladder sane => exact hend amid ladder
  | exhausted phase root ended returned =>
      obtain ⟨status, hstatus⟩ := Option.ne_none_iff_exists'.mp ended
      have hstatus' : c.status = some status := hstatus
      rw [Search.summarize] at hok
      simp only [hstatus'] at hok
      cases hok
      exact .exhausted phase root ended returned

/-- **LEAVING A SEARCH** gives the store back as it was. -/
theorem Standing.release (h : Standing base s) :
    ∃ u, s.release = (.ok (), u) ∧ Returned base u := by
  obtain ⟨c, t⟩ := s
  have hend : ∀ {stack}, Amid base ⟨c, t⟩ → Climbs base t.domains stack →
      ∃ u, Search.release ⟨c, t⟩ = (.ok (), u) ∧ Returned base u := by
    intro stack amid hladder
    have hroot : c.root = some base.snapshot.1 := amid.root
    rw [Search.release]
    simp only [hroot]
    exact restore_root amid.model hladder
  cases h with
  | moving phase amid ladder => exact hend amid ladder
  | selecting phase amid ladder sane => exact hend amid ladder
  | branching phase amid stack untried ladder sane => exact hend amid ladder
  | exhausted phase root ended returned =>
      have hroot : c.root = none := root
      rw [Search.release]
      simp only [hroot]
      exact ⟨t, rfl, returned⟩

end Search

end ConstraintSolver
