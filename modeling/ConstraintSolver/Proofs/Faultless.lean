import ConstraintSolver.Proofs.Ending

/-! # Faultless — a careful policy breaks no rule

    A policy is careful if it chooses unfixed variables of the scope as long
    as there are any, and values among the candidates; the built-in ones are
    (`Policy.careful_of`).  If the variables of the scope have values when the
    search is begun, every step of a search with a careful policy goes well
    (`Waning.step_ok`): a variable that has values keeps some of them, so
    there is always something to try.

    As the search comes to an end, it does so without breaking a rule
    (`Waning.faultless`). -/

namespace ConstraintSolver

open Constraint Store

/-- Unfixed variables of the scope are chosen as long as there are any, and values
    among the candidates. -/
structure Policy.Careful {ρ : Type} (policy : Policy ρ) : Prop where
  onVariable : ∀ (s : Store) (scope : List Variable), (∀ v ∈ scope, s.owns v = true) →
    (policy.chooseVariable s scope = .ok none ∧ ∀ v ∈ scope, (s.domain v).isFixed = true) ∨
      ∃ v ∈ scope, policy.chooseVariable s scope = .ok (some v)
  onValue : policy.ChoosesCandidates

/-- The built-in policies are careful if their generator draws in range. -/
theorem Policy.careful_of {ρ : Type} [RandomSource ρ] (hrandom : RandomSource.DrawsBelow ρ)
    (onVariable : VariableChoice) (onValue : ValueChoice) :
    (Policy.of onVariable onValue : Policy ρ).Careful := by
  refine ⟨fun s scope hscope => ?_, choosesCandidates_of hrandom onVariable onValue⟩
  refine (VariableChoice.choose_cases onVariable hscope).imp id ?_
  rintro ⟨v, hv, hchosen, _⟩
  exact ⟨v, hv, hchosen⟩

namespace Search

variable {ρ τ : Type} {policy : Policy ρ} {rule : TerminationRule τ} {base t : Store}
  {d n : Nat} {s u : Search ρ τ} {c : SearchControl ρ τ}

/-- When a value is to be tried, there is a candidate, and no other one is being tried. -/
def Offers (s : Search ρ τ) : Prop :=
  s.control.phase = .branching → ∃ choice older, s.control.stack = choice :: older ∧
    choice.saved = none ∧ choice.remaining.isEmpty = false

theorem Offers.of_ne (h : s.control.phase ≠ .branching) : Offers s := fun hphase => absurd hphase h

/-- The operation goes well, and if a value is to be tried after it, there is one. -/
def GoesWell {α : Type} (r : Except Misuse α × Search ρ τ) : Prop :=
  ∃ found s, r = (.ok found, s) ∧ Offers s

/-- Finishing goes well at any depth of the stack. -/
theorem goesWell_finish {P : Domains → ChoicePoint → Prop} {stack : List ChoicePoint}
    (amid : Amid base ⟨c, t⟩) (ladder : Ladder base P t.domains stack) (status : SearchStatus) :
    GoesWell (finish ⟨c, t⟩ status) := by
  obtain ⟨s, hs, hphase, _⟩ := finish_returns amid ladder status
  exact ⟨(), s, hs, .of_ne fun h => nomatch hphase.symm.trans h⟩

theorem goesWell_silently {r : Except Misuse Unit × Search ρ τ} (h : GoesWell r) :
    GoesWell (silently r) := by
  obtain ⟨_, s, rfl, hs⟩ := h
  exact ⟨none, s, rfl, hs⟩

/-- Reporting goes well once the scope is fixed. -/
theorem goesWell_report {P : Domains → ChoicePoint → Prop} (amid : Amid base ⟨c, t⟩)
    (ladder : Ladder base P t.domains c.stack)
    (hfixed : ∀ v ∈ c.goal.scope, (t.domain v).isFixed = true) :
    GoesWell (Search.report ⟨c, t⟩) := by
  have hread : readSolution t c.goal.scope = .ok
      (t.restriction c.goal.scope fun v => (t.domain v).lowerBound).entries := by
    refine readSolution_eq fun v hv => ?_
    obtain ⟨x, hx⟩ := Option.isSome_iff_exists.mp (hfixed v hv)
    rw [hx, (Domain.bounds_of_fixed hx).1]
  rw [report_eq hread]
  split
  · have hmodel := amid.model.trans (evolves_note t (.solution (c.statistics.solutions + 1)
      (t.restriction c.goal.scope fun v => (t.domain v).lowerBound))).toSameModel
    obtain ⟨_, s, hs, hoffers⟩ := goesWell_finish (c := counted c)
      (amid.of_store hmodel amid.stamped rfl rfl) ladder .solutionLimitReached
    rw [hs]
    exact ⟨_, s, rfl, hoffers⟩
  · exact ⟨_, _, rfl, .of_ne fun h => nomatch h⟩

/-- Selecting goes well in a drained store, since the check for completion does. -/
theorem goesWell_select (hcareful : policy.Careful) (amid : Amid base ⟨c, t⟩)
    (ladder : Ladder base (Branched base d n) t.domains c.stack)
    (roomy : Roomy base d n t.domains) (drained : t.Drained)
    (hscope : ∀ v ∈ c.goal.scope, base.owns v = true)
    (hvalues : ∀ v ∈ c.goal.scope, ∃ x, x ∈ base.domain v) :
    GoesWell (Search.select policy ⟨c, t⟩) := by
  have howns : t.owns = base.owns := by
    funext v
    exact decide_eq_decide.mpr (by rw [Domains.Owns, Domains.Owns, amid.model.shape.1])
  rw [Search.select]
  rcases hcareful.onVariable t c.goal.scope (howns ▸ hscope) with
    ⟨hnone, hfixed⟩ | ⟨v, hv, hchosen⟩
  · obtain ⟨w, hcomplete, hunmoved⟩ := (Alike.refl t).hasCompletion drained amid.stamped
    simp only [hnone, hcomplete]
    have hev := hunmoved.evolves
    have hmodel := amid.model.trans hev.toSameModel
    have hst := hev.retraces.stamped amid.stamped
    cases t.completable with
    | true =>
        refine goesWell_report (amid.of_store hmodel hst rfl rfl)
          (ladder.retraces amid.stamped hev.retraces).1 fun v hv => ?_
        rw [domain, hunmoved.domains]
        exact hfixed v hv
    | false => exact ⟨none, _, rfl, .of_ne (by rintro ⟨⟩)⟩
  · have hv' : t.owns v = true := howns ▸ hscope v hv
    simp only [hchosen, hv', if_true]
    refine ⟨none, _, rfl, fun _ => ⟨_, _, rfl, rfl, ?_⟩⟩
    -- the variable has a value left, so the choice point has candidates
    obtain ⟨x, hx⟩ := roomy.keeps v (hvalues v hv)
    exact Bool.eq_false_iff.mpr fun hempty => Domain.isEmpty_iff.mp hempty x hx

/-- Trying goes well where the newest choice point has candidates and no snapshot. -/
theorem goesWell_branch (hcareful : policy.Careful) {choice : ChoicePoint}
    {older : List ChoicePoint} (hstack : c.stack = choice :: older)
    (huntried : choice.saved = none) (hleft : choice.remaining.isEmpty = false) :
    GoesWell (Search.branch policy rule ⟨c, t⟩) := by
  obtain ⟨value, rest, hchosen, hmem⟩ :=
    hcareful.onValue t choice.var choice.remaining c.random hleft
  have htries : Tries policy c t choice older value rest :=
    ⟨hstack, huntried, hleft, hchosen, hmem⟩
  refine ⟨(), _, htries.branch rule, .of_ne ?_⟩
  rw [decide_eq]
  split
  · rintro ⟨⟩
  · rintro ⟨⟩

/-- Going back goes well, since the stack is a ladder. -/
theorem goesWell_backtrack (amid : Amid base ⟨c, t⟩)
    (ladder : Ladder base (Branched base d n) t.domains c.stack) :
    GoesWell (Search.backtrack ⟨c, t⟩) := by
  rw [Search.backtrack]
  rcases undoTrial_climbs (R := fun _ => True) (fun _ _ _ => True.intro) c.stack amid.model
      amid.stamped ladder True.intro with
    ⟨u, hundo, hmodel, hst, hladder, _⟩ | ⟨choice, older, u, hundo, hleft, _⟩
  · simp only [hundo]
    have hamid : Amid base ⟨{ c with stack := [] }, u⟩ := amid.of_store hmodel hst rfl rfl
    exact goesWell_finish hamid hladder .complete
  · simp only [hundo]
    exact ⟨(), _, rfl, fun _ => ⟨_, _, rfl, rfl, hleft⟩⟩

theorem goesWell_unlessStopped {P : Domains → ChoicePoint → Prop} {stack : List ChoicePoint}
    (amid : Amid base ⟨c, t⟩) (ladder : Ladder base P t.domains stack)
    {go : Search ρ τ → Except Misuse (Option Solution) × Search ρ τ}
    (hgo : ∀ termination, GoesWell (go ⟨{ c with termination := termination }, t⟩)) :
    GoesWell (unlessStopped rule ⟨c, t⟩ go) := by
  rw [unlessStopped]
  split
  · exact goesWell_silently (goesWell_finish (amid.changed _) ladder .terminated)
  · exact hgo _

variable (rule) in
/-- **EVERY STEP GOES WELL** with a careful policy, if the scope has values. -/
theorem Waning.step_ok (h : Waning base d n s) (hoffers : Offers s) (hcareful : policy.Careful)
    (hscope : ∀ v ∈ s.control.goal.scope, base.owns v = true)
    (hvalues : ∀ v ∈ s.control.goal.scope, ∃ x, x ∈ base.domain v) :
    GoesWell (s.step policy rule) := by
  obtain ⟨c, t⟩ := s
  rw [Search.step]
  cases h with
  | propagating phase amid ladder roomy tidy =>
      rw [phase]
      refine ⟨none, _, rfl, .of_ne ?_⟩
      rw [Search.propagate]
      split
      · rintro ⟨⟩
      · rintro ⟨⟩
  | selecting phase amid ladder roomy drained =>
      rw [phase]
      refine goesWell_unlessStopped amid ladder fun termination => ?_
      exact goesWell_select hcareful (amid.changed termination) ladder roomy drained hscope hvalues
  | branching phase amid stack ladder branched drained =>
      obtain ⟨choice, older, hstack, huntried, hleft⟩ := hoffers phase
      rw [phase]
      refine goesWell_unlessStopped amid ladder fun termination => ?_
      exact goesWell_silently (goesWell_branch hcareful hstack huntried hleft)
  | backtracking phase amid ladder =>
      rw [phase]
      exact goesWell_silently (goesWell_backtrack amid ladder)
  | exhausted phase =>
      rw [phase]
      exact ⟨none, _, rfl, hoffers⟩

/-- **NO RULE IS BROKEN** after any run. -/
theorem Waning.faultless {steps : Nat} {xs : List Solution} (h : Waning base d n s)
    (hoffers : Offers s) (hcareful : policy.Careful) (hunfixed : policy.ChoosesUnfixed)
    (hscope : ∀ v ∈ s.control.goal.scope, base.owns v = true)
    (hvalues : ∀ v ∈ s.control.goal.scope, ∃ x, x ∈ base.domain v)
    (hruns : Runs policy rule steps s xs u) : ∃ found w, u.step policy rule = (.ok found, w) := by
  induction hruns with
  | zero s =>
      obtain ⟨found, w, hstep, _⟩ := h.step_ok rule hoffers hcareful hscope hvalues
      exact ⟨found, w, hstep⟩
  | step going taken patience later ih =>
      obtain ⟨found, w, hstep, hw⟩ := h.step_ok rule hoffers hcareful hscope hvalues
      rw [taken] at hstep
      cases hstep
      have hgoal := (steady_step taken).goal
      exact ih (h.step hunfixed going taken).1 hw (hgoal ▸ hscope) (hgoal ▸ hvalues)

end Search

end ConstraintSolver
