import ConstraintSolver.Proofs.Ladder

/-! # Exploration — no step of a search loses or repeats a solution

    A search goes from phase to phase.  In each phase the store is on the
    ladder of the choice points, and what has been reported and what is left
    together account for every solution (`Exploring`).  The current domains
    are a region of their own while the search goes down; when it goes up,
    they have been dropped or reported.

    There is one lemma for every kind of step: propagation shrinks the
    current region or drops it, a choice of a variable names the candidates,
    a decision splits the region in two, a solution is reported, and going
    back drops the choice points without candidates.  Together they say that
    a step succeeds and keeps the invariant (`Exploring.step`), and so does a
    run of any length (`Exploring.run`). -/

namespace ConstraintSolver

open Constraint Store

/-- The solution which an answer reports. -/
def Answer.solutions : Answer → List Solution
  | .solution x => [x]
  | _ => []

namespace Search

variable {ρ τ : Type}

/-! ## The invariant -/

/-- Propagation will lead to a fixpoint with the same solutions, or find that there
    are none. -/
def Settles (base t : Store) : Prop :=
  match t.propagate with
  | (.ok (), u) => AtFixpoint .unviolated u ∧ ∀ σ, u.SolvedBy σ ↔ t.SolvedBy σ
  | (.error _, _) => base.failure = none → ∀ σ, ¬ t.SolvedBy σ

/-- A healthy store settles. -/
theorem settles_of_healthy {base t : Store} (h : Healthy .unviolated t) : Settles base t := by
  rw [Settles]
  cases hprop : t.propagate with
  | mk result u =>
      cases result with
      | ok _ =>
          obtain ⟨hfix, _, hkept⟩ := h.propagate_ok hprop
          exact ⟨hfix, hkept⟩
      | error why => exact fun _ => h.propagate_error hprop

/-- The newest choice point has candidates, none of which is being tried. -/
structure Opened (base : Store) (choice : ChoicePoint) (t : Store) (scope : List Variable) :
    Prop where
  untried : choice.saved = none
  left : choice.remaining.isEmpty = false
  fixpoint : AtFixpoint .unviolated t
  chosen : Chosen base scope t.domains choice

/-- **THE INVARIANT OF A SEARCH** which has reported some solutions, phase by
    phase. -/
inductive Exploring (base : Store) (goal : SearchGoal) (reported : List Solution)
    (s : Search ρ τ) : Prop
  | propagating (phase : s.control.phase = .propagating) (amid : Amid base s)
      (same : s.control.goal = goal)
      (ladder : Ladder base (Chosen base goal.scope) s.store.domains s.control.stack)
      (explores : Explores base goal.scope reported
        (s.store.domains.get :: regionsOf s.store.domains s.control.stack))
      (settles : Settles base s.store)
  | selecting (phase : s.control.phase = .selecting) (amid : Amid base s)
      (same : s.control.goal = goal)
      (ladder : Ladder base (Chosen base goal.scope) s.store.domains s.control.stack)
      (explores : Explores base goal.scope reported
        (s.store.domains.get :: regionsOf s.store.domains s.control.stack))
      (fixpoint : AtFixpoint .unviolated s.store)
  | branching {choice : ChoicePoint} {older : List ChoicePoint}
      (phase : s.control.phase = .branching) (amid : Amid base s)
      (same : s.control.goal = goal) (stack : s.control.stack = choice :: older)
      (ladder : Ladder base (Chosen base goal.scope) s.store.domains older)
      (explores : Explores base goal.scope reported
        (Family.narrowed s.store.domains.get choice.var choice.remaining ::
          regionsOf s.store.domains older))
      (opened : Opened base choice s.store goal.scope)
  | backtracking (phase : s.control.phase = .backtracking) (amid : Amid base s)
      (same : s.control.goal = goal)
      (ladder : Ladder base (Chosen base goal.scope) s.store.domains s.control.stack)
      (explores : Explores base goal.scope reported
        (regionsOf s.store.domains s.control.stack))
  | exhausted {regions : List Family} {status : SearchStatus}
      (phase : s.control.phase = .exhausted)
      (ended : s.control.status = some status)
      (complete : status = .complete → regions = [])
      (explores : Explores base goal.scope reported regions)

/-- Where a search can be begun. -/
structure Ground (base : Store) (goal : SearchGoal) : Prop where
  wired : base.Wired
  numbered : base.Numbered
  scope : ∀ v ∈ goal.scope, v ∈ base.allVariables

variable {base : Store} {goal : SearchGoal} {reported : List Solution} {s : Search ρ τ}
  {c : SearchControl ρ τ} {t : Store} {stack : List ChoicePoint} {regions : List Family}

/-! ## The end -/

/-- A search that is finished has explored what it says it has. -/
theorem finish_exploring (h : Amid base ⟨c, t⟩)
    (hladder : Ladder base (Chosen base goal.scope) t.domains stack)
    (hex : Explores base goal.scope reported regions) (status : SearchStatus)
    (hcomplete : status = .complete → regions = []) :
    ∃ s : Search ρ τ, finish ⟨c, t⟩ status = (.ok (), s) ∧ Exploring base goal reported s := by
  obtain ⟨s, hs, hphase, _, hstatus, _, _⟩ := finish_returns h hladder status
  exact ⟨s, hs, .exhausted hphase hstatus hcomplete hex⟩

/-! ## Propagation -/

/-- **PROPAGATION** shrinks the current region, or drops it. -/
theorem Exploring.propagate (amid : Amid base ⟨c, t⟩) (same : c.goal = goal)
    (hladder : Ladder base (Chosen base goal.scope) t.domains c.stack)
    (hex : Explores base goal.scope reported (t.domains.get :: regionsOf t.domains c.stack))
    (hsettles : Settles base t) :
    Exploring base goal reported (Search.propagate ⟨c, t⟩) := by
  have hev := evolves_propagate t
  have hinside := hex.inside _ List.mem_cons_self
  unfold Search.propagate
  unfold Settles at hsettles
  cases hprop : t.propagate with
  | mk result u =>
      rw [hprop] at hev hsettles
      simp only [hprop]
      have hmodel := amid.model.trans hev.toSameModel
      have hst := hev.retraces.stamped amid.stamped
      obtain ⟨hladder', hregions⟩ := hladder.retraces amid.stamped hev.retraces
      rw [← hregions] at hex
      cases result with
      | ok _ =>
          obtain ⟨hfix, hkept⟩ := hsettles
          -- every solution of the region satisfies the store as it is now, so propagation keeps it
          refine .selecting rfl (amid.of_store hmodel hst rfl rfl) same hladder' ?_ hfix
          refine hex.shrink hev.shrinks fun σ hσ hdraw => ?_
          have ht := (amid.model.solvedBy_iff hinside).mpr ⟨hσ, hdraw⟩
          exact ((hmodel.solvedBy_iff (hev.shrinks.trans hinside)).mp ((hkept σ).mpr ht)).2
      | error why =>
          have hmodel' := hmodel.trans (evolves_note u (.propagationFailed why)).toSameModel
          refine .backtracking rfl (amid.of_store hmodel' hst rfl rfl) same hladder' ?_
          refine hex.drop fun hf σ hσ hdraw => ?_
          exact hsettles hf σ ((amid.model.solvedBy_iff hinside).mpr ⟨hσ, hdraw⟩)

/-! ## Selection -/

/-- Where the scope is fixed, the solution is read off the assignment. -/
theorem readSolution_eq {scope : List Variable} {σ : Assignment}
    (h : ∀ v ∈ scope, (t.domain v).fixedValue? = some (σ v)) :
    readSolution t scope = .ok (t.restriction scope σ).entries := by
  induction scope with
  | nil => rfl
  | cons v scope ih =>
      rw [readSolution, h v List.mem_cons_self]
      simp only [ih fun w hw => h w (List.mem_cons_of_mem v hw)]
      rfl

/-- What a step that may find a solution comes to. -/
def Progresses (base : Store) (goal : SearchGoal) (reported : List Solution)
    (r : Except Misuse (Option Solution) × Search ρ τ) : Prop :=
  ∃ found s, r = (.ok found, s) ∧ Exploring base goal (reported ++ found.toList) s

/-- A step that reports nothing progresses if the search goes on exploring. -/
theorem progresses_none (h : Exploring base goal reported s) :
    Progresses base goal reported (.ok none, s) :=
  ⟨none, s, rfl, (List.append_nil reported).symm ▸ h⟩

theorem progresses_silently {r : Except Misuse Unit × Search ρ τ}
    (h : ∃ s, r = (.ok (), s) ∧ Exploring base goal reported s) :
    Progresses base goal reported (silently r) := by
  obtain ⟨s, rfl, hs⟩ := h
  exact progresses_none hs

/-- **REPORTING**: at a fixpoint with a solution where the scope is fixed, the
    assignment of the scope is reported, and the current region is done. -/
theorem Exploring.report (hg : Ground base goal) (amid : Amid base ⟨c, t⟩)
    (same : c.goal = goal) (hladder : Ladder base (Chosen base goal.scope) t.domains c.stack)
    (hex : Explores base goal.scope reported (t.domains.get :: regionsOf t.domains c.stack))
    (hfixed : ∀ v ∈ goal.scope, (t.domain v).isFixed = true) {σ : Assignment}
    (hσ : t.SolvedBy σ) : Progresses base goal reported (Search.report ⟨c, t⟩) := by
  have hmodel : SameModel base t := amid.model
  have hsolved := (hmodel.solvedBy_iff (hex.inside _ List.mem_cons_self)).mp hσ
  -- where the scope is fixed, the values that are read are those of the solution
  have hvalue : ∀ v ∈ goal.scope, (t.domain v).fixedValue? = some (σ v) := by
    intro v hv
    obtain ⟨x, hx⟩ := Option.isSome_iff_exists.mp (hfixed v hv)
    rw [hx, (Domain.fixedValue?_eq_some.mp hx).2 _ (hsolved.2 v (hg.scope v hv))]
  have hrep := hex.report hsolved.1 hsolved.2 hg.scope fun v hv =>
    (Domain.fixedValue?_eq_some.mp (hvalue v hv)).2
  have hread : readSolution t c.goal.scope = .ok (base.restriction goal.scope σ).entries := by
    rw [same, readSolution_eq hvalue, hmodel.restriction]
  have hnoted : Amid base ⟨counted c,
      t.note (.solution (c.statistics.solutions + 1) (base.restriction goal.scope σ))⟩ :=
    amid.of_store (hmodel.trans (evolves_note t _).toSameModel) amid.stamped rfl rfl
  rw [report_eq hread]
  split
  · obtain ⟨s, hs, hexploring⟩ :=
      finish_exploring hnoted hladder hrep .solutionLimitReached fun h => nomatch h
    rw [hs]
    exact ⟨_, s, rfl, hexploring⟩
  · refine ⟨_, _, rfl, .backtracking rfl ?_ same hladder hrep⟩
    exact hnoted.of_store hnoted.model hnoted.stamped rfl rfl

/-- **SELECTION**: a variable is chosen and its domain holds the candidates, or the
    scope is fixed and a completion decides. -/
theorem Exploring.select {policy : Policy ρ} {choice : VariableChoice}
    (hvariable : policy.chooseVariable = choice.choose) (hg : Ground base goal)
    (amid : Amid base ⟨c, t⟩) (same : c.goal = goal)
    (hladder : Ladder base (Chosen base goal.scope) t.domains c.stack)
    (hex : Explores base goal.scope reported (t.domains.get :: regionsOf t.domains c.stack))
    (hfix : AtFixpoint .unviolated t) :
    Progresses base goal reported (Search.select policy ⟨c, t⟩) := by
  have hmodel : SameModel base t := amid.model
  have howns : ∀ v ∈ goal.scope, t.owns v = true := by
    intro v hv
    have := hg.scope v hv
    rw [← hmodel.allVariables] at this
    exact owns_of_mem this
  have hinside := hex.inside _ List.mem_cons_self
  rw [Search.select]
  rw [hvariable]
  rcases VariableChoice.choose_cases choice howns with ⟨hnone, hfixed⟩ | ⟨v, hv, hsome, hfree⟩
  · obtain ⟨found, u, hcomplete, hunmoved, hfound⟩ := hfix.hasCompletion
    rw [← hunmoved.domains] at hladder hex
    have hmodel' := hmodel.trans hunmoved.evolves.toSameModel
    have hst : u.domains.Stamped := hunmoved.evolves.retraces.stamped amid.stamped
    simp only [same, hnone, hcomplete]
    cases found with
    | true =>
        obtain ⟨σ, hσ⟩ := hfound.mp rfl
        -- the completion is a solution that lies in the current region
        refine Exploring.report hg (amid.of_store hmodel' hst rfl rfl) same hladder hex ?_
          ((hunmoved.solvedBy_iff σ).mpr hσ)
        simp only [Store.domain, hunmoved.domains]
        exact hfixed
    | false =>
        -- without a completion the region holds no solution
        refine progresses_none (.backtracking rfl ?_ same hladder ?_)
        · exact amid.of_store (hmodel'.trans (evolves_note u .noCompletion).toSameModel) hst
            rfl rfl
        · refine hex.drop fun _ σ hσ hdraw => ?_
          rw [hunmoved.domains] at hdraw
          exact Bool.false_ne_true
            (hfound.mpr ⟨σ, (hmodel.solvedBy_iff hinside).mpr ⟨hσ, hdraw⟩⟩)
  · simp only [same, hsome, if_pos (howns v hv)]
    -- all values of the variable are candidates, so the region stays what it is
    have hself := Family.narrowed_self t.domains.get v
    have hleft : (t.domains.get v).isEmpty = false := by
      rw [← Bool.not_eq_true, Domain.isEmpty_iff]
      intro hempty
      have hvs := hg.scope v hv
      rw [← hmodel.allVariables] at hvs
      obtain ⟨x, hx⟩ := hfix.inhabited v hvs
      exact hempty x hx
    refine progresses_none (.branching rfl (amid.of_store hmodel amid.stamped rfl rfl) same rfl
      hladder ?_ ⟨rfl, hleft, hfix, hfix.rested hmodel hinside, hv, le_refl _⟩)
    rw [← hself] at hex
    exact hex

/-! ## Decisions -/

/-- **A DECISION** splits the current region: one part has the value and is looked
    at next, the other is left to the choice point. -/
theorem Exploring.decide (hg : Ground base goal) (rule : TerminationRule τ)
    {choice : ChoicePoint} {older : List ChoicePoint} (amid : Amid base ⟨c, t⟩)
    (same : c.goal = goal) (hladder : Ladder base (Chosen base goal.scope) t.domains older)
    (hex : Explores base goal.scope reported
      (Family.narrowed t.domains.get choice.var choice.remaining :: regionsOf t.domains older))
    (hopened : Opened base choice t goal.scope) {value : Int}
    (hmem : value ∈ choice.remaining) :
    Exploring base goal reported (Search.decide rule ⟨c, t⟩ choice older value) := by
  obtain ⟨_, _, hfix, hrested, hscope, hcandidates⟩ := hopened
  have hvs := hg.scope choice.var hscope
  have hvt : choice.var ∈ t.allVariables := by
    rw [amid.model.allVariables]
    exact hvs
  have hhealthy := hfix.toHealthy.snapshot.note
    (.decision choice.var value (older.length + 1))
  obtain ⟨u, hassign, hu, hev, hget⟩ := hhealthy.assign hvt (hcandidates value hmem)
  have hget' : u.domains.get = Family.narrowed t.domains.get choice.var
      ((t.domains.get choice.var).prune (.exactly value)) := hget
  have hknown : Chosen base goal.scope t.domains.settled
      ⟨choice.var, choice.remaining.prune (.except value), some t.snapshot.1⟩ :=
    ⟨hrested.congr rfl, hscope, (choice.remaining.prune_le _).trans hcandidates⟩
  obtain ⟨hmodel, hst, hladder', hregions⟩ :=
    ladder_decided amid.model amid.stamped hfix.failure hladder rule c hknown hev
  -- one part is where the search goes, the other is what the choice point keeps
  have hsplit := hex.split hcandidates hscope hvs hmem
  rw [← hget', ← hregions] at hsplit
  rw [decide_eq, hassign]
  exact .propagating rfl (amid.of_store hmodel hst rfl rfl) same hladder' hsplit
    (settles_of_healthy hu)

/-- **BRANCHING** tries one of the candidates. -/
theorem Exploring.branch {policy : Policy ρ} (hvalue : policy.ChoosesCandidates)
    (hg : Ground base goal) (rule : TerminationRule τ) {choice : ChoicePoint}
    {older : List ChoicePoint} (amid : Amid base ⟨c, t⟩) (same : c.goal = goal)
    (hstack : c.stack = choice :: older)
    (hladder : Ladder base (Chosen base goal.scope) t.domains older)
    (hex : Explores base goal.scope reported
      (Family.narrowed t.domains.get choice.var choice.remaining :: regionsOf t.domains older))
    (hopened : Opened base choice t goal.scope) :
    ∃ s, Search.branch policy rule ⟨c, t⟩ = (.ok (), s) ∧ Exploring base goal reported s := by
  obtain ⟨value, rest, hchoose, hmem⟩ :=
    hvalue t choice.var choice.remaining c.random hopened.left
  have htries : Tries policy c t choice older value rest :=
    ⟨hstack, hopened.untried, hopened.left, hchoose, hmem⟩
  refine ⟨_, htries.branch rule, Exploring.decide hg rule ?_ ?_ hladder hex hopened hmem⟩
  · exact amid.of_store amid.model amid.stamped rfl rfl
  · exact same

/-! ## Going back -/

/-- **BACKTRACKING** drops the choice points without candidates; a search without
    any others is complete. -/
theorem Exploring.backtrack (hg : Ground base goal) (amid : Amid base ⟨c, t⟩)
    (same : c.goal = goal) (hladder : Ladder base (Chosen base goal.scope) t.domains c.stack)
    (hex : Explores base goal.scope reported (regionsOf t.domains c.stack)) :
    ∃ s, Search.backtrack ⟨c, t⟩ = (.ok (), s) ∧ Exploring base goal reported s := by
  -- without candidates nothing can be drawn from the region of a choice point
  have hdrop : ∀ {u : Store} {choice : ChoicePoint} {older : List ChoicePoint}
      {regions : List Family}, Ladder.Climbed base (Chosen base goal.scope) choice older u →
      choice.remaining.isEmpty = true →
      Explores base goal.scope reported
        (Family.narrowed u.domains.get choice.var choice.remaining :: regions) →
      Explores base goal.scope reported regions := by
    intro u choice older regions hclimbed hempty hex
    refine hex.drop fun _ σ _ hdraw => ?_
    have hvs := hg.scope choice.var hclimbed.known.inScope
    exact Domain.isEmpty_iff.mp hempty _
      ((Family.draws_narrowed_iff hclimbed.known.candidates hvs).mp hdraw).2
  rw [Search.backtrack]
  rcases undoTrial_climbs hdrop c.stack amid.model amid.stamped hladder hex with
    ⟨u, hundo, hmodel, hst, hladder', hex'⟩ | ⟨choice, older, u, hundo, hleft, hclimbed, hex'⟩
  · have hamid : Amid base ⟨{ c with stack := [] }, u⟩ := amid.of_store hmodel hst rfl rfl
    simp only [hundo]
    exact finish_exploring hamid hladder' hex' .complete fun _ => rfl
  · simp only [hundo]
    have hfix := hclimbed.atFixpoint hg.wired hg.numbered
    refine ⟨_, rfl, .branching rfl (amid.of_store hclimbed.model hclimbed.stamped rfl rfl) same
      rfl hclimbed.below hex' ⟨rfl, hleft, hfix, ?_⟩⟩
    exact ⟨hclimbed.known.rested, hclimbed.known.inScope, hclimbed.known.candidates⟩

/-! ## Steps and runs -/

/-- Asking the termination condition, which may end the search, and going on
    otherwise. -/
theorem progresses_unlessStopped (rule : TerminationRule τ) (amid : Amid base ⟨c, t⟩)
    (hladder : Ladder base (Chosen base goal.scope) t.domains stack)
    (hex : Explores base goal.scope reported regions)
    {go : Search ρ τ → Except Misuse (Option Solution) × Search ρ τ}
    (hgo : ∀ termination, Progresses base goal reported
      (go ⟨{ c with termination := termination }, t⟩)) :
    Progresses base goal reported (unlessStopped rule ⟨c, t⟩ go) := by
  unfold unlessStopped
  cases hstop : rule.shouldStop c.termination with
  | mk stop termination =>
      simp only [hstop]
      cases stop with
      | true =>
          refine progresses_silently (finish_exploring ?_ hladder hex _ fun h => nomatch h)
          exact amid.changed termination
      | false => exact hgo termination

/-- **A STEP** succeeds, whatever the phase, and keeps the invariant. -/
theorem Exploring.step {policy : Policy ρ} {choice : VariableChoice}
    (hvariable : policy.chooseVariable = choice.choose) (hvalue : policy.ChoosesCandidates)
    (hg : Ground base goal) (rule : TerminationRule τ) (h : Exploring base goal reported s) :
    Progresses base goal reported (s.step policy rule) := by
  obtain ⟨c, t⟩ := s
  rw [Search.step]
  cases h with
  | propagating phase amid same ladder explores settles =>
      rw [phase]
      exact progresses_none (Exploring.propagate amid same ladder explores settles)
  | selecting phase amid same ladder explores fixpoint =>
      rw [phase]
      refine progresses_unlessStopped rule amid ladder explores fun termination => ?_
      exact Exploring.select hvariable hg (amid.changed termination) same ladder explores fixpoint
  | branching phase amid same stack ladder explores opened =>
      rw [phase]
      refine progresses_unlessStopped rule amid ladder explores fun termination => ?_
      exact progresses_silently
        (Exploring.branch hvalue hg rule (amid.changed termination) same stack ladder explores opened)
  | backtracking phase amid same ladder explores =>
      rw [phase]
      exact progresses_silently (Exploring.backtrack hg amid same ladder explores)
  | exhausted phase ended complete explores =>
      rw [phase]
      exact progresses_none (.exhausted phase ended complete explores)

/-- The answer at the end brings no solution. -/
theorem solutions_finalAnswer (c : SearchControl ρ τ) : c.finalAnswer.solutions = [] := by
  rw [SearchControl.finalAnswer]
  split
  · rfl
  · split <;> rfl
  · rfl

/-- Collecting is over when the next answer brings no solution. -/
theorem collect_of_next {policy : Policy ρ} {rule : TerminationRule τ} {σ : Type}
    (listen : Solution → σ × τ → σ × τ) (heard : σ) {s' : Search ρ τ} {answer : Answer}
    (hnext : s.next policy rule = (.ok answer, s')) (hnothing : answer.solutions = [])
    (solutions : Nat) :
    collect policy rule listen (solutions + 1) s heard = (.ok heard, s') := by
  rw [collect, hnext]
  cases answer with
  | solution x => cases hnothing
  | finished => rfl
  | unsatisfiable => rfl
  | unknown => rfl

/-- The first solution is the one that the next answer brings, once the store is given back. -/
theorem first_of_next {policy : Policy ρ} {rule : TerminationRule τ} {s' : Search ρ τ}
    {answer : Answer} (hnext : s.next policy rule = (.ok answer, s'))
    (hrelease : s'.release = (.ok (), t)) :
    first policy rule s = (.ok answer.solutions.head?, t) := by
  rw [first, hnext]
  simp only [hrelease]
  cases answer <;> rfl

/-- **A RUN** of any number of steps succeeds and keeps the invariant; it reports the
    solution which it answers. -/
theorem Exploring.run {policy : Policy ρ} {choice : VariableChoice}
    (hvariable : policy.chooseVariable = choice.choose) (hvalue : policy.ChoosesCandidates)
    (hg : Ground base goal) (rule : TerminationRule τ) (steps : Nat)
    (h : Exploring base goal reported s) :
    ∃ answer s', Search.run policy rule steps s = (.ok answer, s') ∧
      Exploring base goal (reported ++ answer.solutions) s' := by
  have hend : ∀ {s : Search ρ τ}, Exploring base goal reported s →
      Exploring base goal (reported ++ s.control.finalAnswer.solutions) s := by
    intro s hs
    rwa [solutions_finalAnswer, List.append_nil]
  induction steps generalizing s with
  | zero => exact ⟨_, s, rfl, hend h⟩
  | succ steps ih =>
      rw [Search.run]
      split
      · exact ⟨_, s, rfl, hend h⟩
      · obtain ⟨found, s', hstep, hs'⟩ := h.step hvariable hvalue hg rule
        rw [hstep]
        cases found with
        | some x => exact ⟨.solution x, s', rfl, hs'⟩
        | none => exact ih ((List.append_nil reported) ▸ hs')

end Search

end ConstraintSolver
