import ConstraintSolver.Proofs.Moves

/-! # Charts — what is known of the places a search gets to

    A chart says three things: what is known of the domains on the way down,
    what is known of a choice point in the state in which it was opened, and
    what is known of the solutions that have been found together with the
    regions that are left.  If the chart is right about propagation, about
    choices and decisions, and about what becomes of the regions
    (`Chart.Right`), then it is right everywhere: each move of a search leads
    from a place on the chart to a place on the chart (`Charted.moves`), and
    so does every course (`Course.charted`).

    Nothing is asked of the store: no condition on its constraints, and none
    on what waits in it. -/

namespace ConstraintSolver

open Constraint Store

/-- What is known on the way of a search. -/
structure Chart where
  /-- Of the domains, while the search goes down. -/
  place : Domains → Prop
  /-- Of a choice point, in the state in which it was opened. -/
  choice : Domains → ChoicePoint → Prop
  /-- Of what has been found, and of the regions that are left. -/
  left : List Solution → List Family → Prop

/-- **A RIGHT CHART**: it is right about everything that a search does on a scope. -/
structure Chart.Right {ρ : Type} (chart : Chart) (policy : Policy ρ) (base : Store)
    (scope : List Variable) : Prop where
  propagated : ∀ {t u : Store}, chart.place t.domains → t.propagate = (.ok (), u) →
    chart.place u.domains
  opened : ∀ {t : Store} {v : Variable}, SameModel base t → chart.place t.domains →
    policy.chooseVariable t scope = .ok (some v) → chart.choice t.domains ⟨v, t.domain v, none⟩
  /-- A choice point may lose candidates, and may be tried or not. -/
  resettled : ∀ {D E : Domains} {choice choice' : ChoicePoint}, chart.choice D choice →
    E.get = D.get → E.depth = D.depth → choice'.var = choice.var →
    choice'.remaining ≤ choice.remaining → chart.choice E choice'
  tried : ∀ {t u : Store} {choice : ChoicePoint} {value : Int} {e : Event},
    chart.choice t.domains choice →
    (t.snapshot.2.note e).assign choice.var value = (.ok (), u) → chart.place u.domains
  shrunk : ∀ {xs : List Solution} {F G : Family} {regions : List Family},
    chart.left xs (F :: regions) → G ≤ F → chart.left xs (G :: regions)
  dropped : ∀ {xs : List Solution} {F : Family} {regions : List Family},
    chart.left xs (F :: regions) → chart.left xs regions
  /-- A decision splits the candidates. -/
  split : ∀ {xs : List Solution} {t : Store} {choice : ChoicePoint} {value : Int}
    {random random' : ρ} {regions : List Family}, chart.choice t.domains choice →
    policy.chooseValue t choice.var choice.remaining random = .ok (value, random') →
    value ∈ choice.remaining →
    chart.left xs (Family.narrowed t.domains.get choice.var choice.remaining :: regions) →
    chart.left xs
      (Family.narrowed t.domains.get choice.var
          ((t.domains.get choice.var).prune (.exactly value)) ::
        Family.narrowed t.domains.get choice.var (choice.remaining.prune (.except value)) ::
          regions)
  reported : ∀ {xs : List Solution} {t : Store} {x : Solution} {regions : List Family},
    Search.readSolution t scope = .ok x.entries → chart.left xs (t.domains.get :: regions) →
    chart.left (xs ++ [x]) regions

namespace Search

variable {ρ τ : Type}

/-- **ON THE CHART**: where a search is that has reported some solutions. -/
inductive Charted (chart : Chart) (base : Store) (goal : SearchGoal) (reported : List Solution)
    (s : Search ρ τ) : Prop
  | propagating (phase : s.control.phase = .propagating) (amid : Amid base s)
      (same : s.control.goal = goal)
      (ladder : Ladder base chart.choice s.store.domains s.control.stack)
      (place : chart.place s.store.domains)
      (left : chart.left reported
        (s.store.domains.get :: regionsOf s.store.domains s.control.stack))
  | selecting (phase : s.control.phase = .selecting) (amid : Amid base s)
      (same : s.control.goal = goal)
      (ladder : Ladder base chart.choice s.store.domains s.control.stack)
      (place : chart.place s.store.domains) (sane : s.store.failure = none)
      (left : chart.left reported
        (s.store.domains.get :: regionsOf s.store.domains s.control.stack))
  | branching {choice : ChoicePoint} {older : List ChoicePoint}
      (phase : s.control.phase = .branching) (amid : Amid base s)
      (same : s.control.goal = goal) (stack : s.control.stack = choice :: older)
      (ladder : Ladder base chart.choice s.store.domains older)
      (known : chart.choice s.store.domains choice) (sane : s.store.failure = none)
      (left : chart.left reported
        (Family.narrowed s.store.domains.get choice.var choice.remaining ::
          regionsOf s.store.domains older))
  | backtracking (phase : s.control.phase = .backtracking) (amid : Amid base s)
      (same : s.control.goal = goal)
      (ladder : Ladder base chart.choice s.store.domains s.control.stack)
      (left : chart.left reported (regionsOf s.store.domains s.control.stack))
  | exhausted {regions : List Family} (phase : s.control.phase = .exhausted)
      (status : s.control.status ≠ none) (left : chart.left reported regions)

variable {chart : Chart} {policy : Policy ρ} {rule : TerminationRule τ} {base : Store}
  {goal : SearchGoal} {reported : List Solution} {regions : List Family}
  {s s' : Search ρ τ} {c : SearchControl ρ τ} {t u : Store} {choice : ChoicePoint}
  {older : List ChoicePoint} {value : Int}

/-- What has been found, whatever the place. -/
theorem Charted.left (h : Charted chart base goal reported s) :
    ∃ regions, chart.left reported regions := by
  cases h with
  | propagating _ _ _ _ _ left => exact ⟨_, left⟩
  | selecting _ _ _ _ _ _ left => exact ⟨_, left⟩
  | branching _ _ _ _ _ _ _ left => exact ⟨_, left⟩
  | backtracking _ _ _ _ left => exact ⟨_, left⟩
  | exhausted _ _ left => exact ⟨_, left⟩

/-- A search that has ended is over. -/
theorem Charted.exhausted_of_status (h : Charted chart base goal reported s)
    (hstatus : s.control.status ≠ none) : s.control.phase = .exhausted := by
  cases h with
  | propagating _ amid => exact absurd amid.status hstatus
  | selecting _ amid => exact absurd amid.status hstatus
  | branching _ amid => exact absurd amid.status hstatus
  | backtracking _ amid => exact absurd amid.status hstatus
  | exhausted phase => exact phase

theorem charted_of_finish {status : SearchStatus} (h : finish ⟨c, t⟩ status = (.ok (), s'))
    (left : chart.left reported regions) : Charted chart base goal reported s' := by
  obtain ⟨runs, hcontrol⟩ := control_of_finish h
  refine .exhausted ?_ ?_ left
  · rw [hcontrol]
    rfl
  · rw [hcontrol]
    exact Option.some_ne_none status

/-! ## Steps -/

/-- Propagation shrinks the current region, or drops it. -/
theorem charted_propagate (hright : chart.Right policy base goal.scope) (amid : Amid base ⟨c, t⟩)
    (same : c.goal = goal) (ladder : Ladder base chart.choice t.domains c.stack)
    (place : chart.place t.domains)
    (left : chart.left reported (t.domains.get :: regionsOf t.domains c.stack)) :
    Charted chart base goal reported (Search.propagate ⟨c, t⟩) := by
  have hev := evolves_propagate t
  cases hprop : t.propagate with
  | mk result u =>
      rw [hprop] at hev
      have hmodel := amid.model.trans hev.toSameModel
      have hst := hev.retraces.stamped amid.stamped
      obtain ⟨hladder, hregions⟩ := ladder.retraces amid.stamped hev.retraces
      rw [← hregions] at left
      cases result with
      | ok _ =>
          rw [Search.propagate_of_ok hprop]
          obtain ⟨hf, _, rfl⟩ := Store.propagate_ok hprop
          exact .selecting rfl (amid.of_store hmodel hst rfl rfl) same hladder
            (hright.propagated place hprop) ((failure_work t none).trans hf)
            (hright.shrunk left hev.shrinks)
      | error why =>
          rw [propagate_of_error hprop]
          have hmodel' := hmodel.trans (evolves_note u (.propagationFailed why)).toSameModel
          exact .backtracking rfl (amid.of_store hmodel' hst rfl rfl) same hladder
            (hright.dropped left)

/-- Where the search was after the check, if it found nothing new. -/
theorem charted_checked (amid : Amid base ⟨c, t⟩)
    (ladder : Ladder base chart.choice t.domains c.stack) {held : Bool}
    (check : t.hasCompletion = (.ok held, u)) :
    Amid base ⟨c, u⟩ ∧ Ladder base chart.choice u.domains c.stack ∧
      regionsOf u.domains c.stack = regionsOf t.domains c.stack ∧
      u.domains.get ≤ t.domains.get := by
  obtain ⟨held', u', hcheck, hev, _⟩ := undoes_hasCompletion t amid.stamped
  rw [check] at hcheck
  cases hcheck
  obtain ⟨hladder, hregions⟩ := ladder.retraces amid.stamped hev.retraces
  exact ⟨amid.of_store (amid.model.trans hev.toSameModel) (hev.retraces.stamped amid.stamped) rfl
    rfl, hladder, hregions, hev.shrinks⟩

/-- A decision splits the current region. If the store refuses the value, the part with
    the value is dropped. -/
theorem charted_decide (hright : chart.Right policy base goal.scope) (rule : TerminationRule τ)
    (amid : Amid base ⟨c, t⟩) (same : c.goal = goal)
    (ladder : Ladder base chart.choice t.domains older)
    (known : chart.choice t.domains choice) (sane : t.failure = none)
    (left : chart.left reported
      (Family.narrowed t.domains.get choice.var choice.remaining :: regionsOf t.domains older))
    {random random' : ρ}
    (chosen : policy.chooseValue t choice.var choice.remaining random = .ok (value, random'))
    (candidate : value ∈ choice.remaining) :
    Charted chart base goal reported (Search.decide rule ⟨c, t⟩ choice older value) := by
  have hev := evolves_assign (t.snapshot.2.note (.decision choice.var value (older.length + 1)))
    choice.var value
  have hknown : chart.choice t.domains.settled
      ⟨choice.var, choice.remaining.prune (.except value), some t.snapshot.1⟩ :=
    hright.resettled known rfl rfl rfl (choice.remaining.prune_le _)
  -- the region of the choice point is split: the chosen value, and the candidates that remain
  have hsplit := hright.split known chosen candidate left
  rw [decide_eq]
  cases hassign : (t.snapshot.2.note (.decision choice.var value (older.length + 1))).assign
      choice.var value with
  | mk result u =>
      rw [hassign] at hev
      obtain ⟨hmodel, hst, hladder, hregions⟩ :=
        ladder_decided amid.model amid.stamped sane ladder rule c hknown hev
      rw [← hregions] at hsplit
      cases result with
      | ok _ =>
          obtain ⟨_, hprune⟩ := assign_ok hassign
          obtain ⟨_, _, _, hget, _, _⟩ := prune_ok hprune
          have hget' : u.domains.get = Family.narrowed t.domains.get choice.var
              ((t.domains.get choice.var).prune (.exactly value)) := funext hget
          rw [← hget'] at hsplit
          exact .propagating rfl (amid.of_store hmodel hst rfl rfl) same hladder
            (hright.tried known hassign) hsplit
      | error why =>
          exact .backtracking rfl (amid.of_store hmodel hst rfl rfl) same hladder
            (hright.dropped hsplit)

/-- Going back drops the choice points without candidates. -/
theorem charted_undone (hright : chart.Right policy base goal.scope) (amid : Amid base ⟨c, t⟩)
    (same : c.goal = goal) (ladder : Ladder base chart.choice t.domains c.stack)
    (left : chart.left reported (regionsOf t.domains c.stack))
    {stack : List ChoicePoint} (undone : undoTrial t c.stack = (.ok stack, u)) :
    (stack = [] ∧ chart.left reported []) ∨
      Charted chart base goal reported ⟨resumed c stack, u⟩ := by
  rcases undoTrial_climbs (R := chart.left reported) (fun _ _ h => hright.dropped h) c.stack
      amid.model amid.stamped ladder left with
    ⟨w, hundo, _, _, _, hleft⟩ | ⟨choice, older, w, hundo, _, hclimbed, hleft⟩
  · rw [undone] at hundo
    cases hundo
    exact Or.inl ⟨rfl, hleft⟩
  · rw [undone] at hundo
    cases hundo
    have hknown : chart.choice u.domains { choice with saved := none } :=
      hright.resettled hclimbed.known rfl rfl rfl (le_refl _)
    exact Or.inr (.branching rfl (amid.of_store hclimbed.model hclimbed.stamped rfl rfl) same rfl
      hclimbed.below hknown hclimbed.failure hleft)

/-! ## Moves -/

/-- While it propagates, the place of the search and all that is left are on the chart. -/
theorem Charted.at_propagating (h : Charted chart base goal reported s)
    (hphase : s.control.phase = .propagating) :
    Amid base s ∧ s.control.goal = goal ∧
      Ladder base chart.choice s.store.domains s.control.stack ∧ chart.place s.store.domains ∧
      chart.left reported (s.store.domains.get :: regionsOf s.store.domains s.control.stack) := by
  cases h with
  | propagating _ amid same ladder place left => exact ⟨amid, same, ladder, place, left⟩
  | selecting phase => exact nomatch hphase.symm.trans phase
  | branching phase => exact nomatch hphase.symm.trans phase
  | backtracking phase => exact nomatch hphase.symm.trans phase
  | exhausted phase => exact nomatch hphase.symm.trans phase

/-- While it selects, the store has not failed either. -/
theorem Charted.at_selecting (h : Charted chart base goal reported s)
    (hphase : s.control.phase = .selecting) :
    Amid base s ∧ s.control.goal = goal ∧
      Ladder base chart.choice s.store.domains s.control.stack ∧ chart.place s.store.domains ∧
      s.store.failure = none ∧
      chart.left reported (s.store.domains.get :: regionsOf s.store.domains s.control.stack) := by
  cases h with
  | propagating phase => exact nomatch hphase.symm.trans phase
  | selecting _ amid same ladder place sane left =>
      exact ⟨amid, same, ladder, place, sane, left⟩
  | branching phase => exact nomatch hphase.symm.trans phase
  | backtracking phase => exact nomatch hphase.symm.trans phase
  | exhausted phase => exact nomatch hphase.symm.trans phase

/-- While it branches, the newest choice point is apart: its region is the one to be narrowed. -/
theorem Charted.at_branching (h : Charted chart base goal reported s)
    (hphase : s.control.phase = .branching) :
    ∃ choice older, s.control.stack = choice :: older ∧ Amid base s ∧ s.control.goal = goal ∧
      Ladder base chart.choice s.store.domains older ∧ chart.choice s.store.domains choice ∧
      s.store.failure = none ∧
      chart.left reported (Family.narrowed s.store.domains.get choice.var choice.remaining ::
        regionsOf s.store.domains older) := by
  cases h with
  | propagating phase => exact nomatch hphase.symm.trans phase
  | selecting phase => exact nomatch hphase.symm.trans phase
  | branching _ amid same stack ladder known sane left =>
      exact ⟨_, _, stack, amid, same, ladder, known, sane, left⟩
  | backtracking phase => exact nomatch hphase.symm.trans phase
  | exhausted phase => exact nomatch hphase.symm.trans phase

/-- While it goes back, there is no place, only the stack. -/
theorem Charted.at_backtracking (h : Charted chart base goal reported s)
    (hphase : s.control.phase = .backtracking) :
    Amid base s ∧ s.control.goal = goal ∧
      Ladder base chart.choice s.store.domains s.control.stack ∧
      chart.left reported (regionsOf s.store.domains s.control.stack) := by
  cases h with
  | propagating phase => exact nomatch hphase.symm.trans phase
  | selecting phase => exact nomatch hphase.symm.trans phase
  | branching phase => exact nomatch hphase.symm.trans phase
  | backtracking _ amid same ladder left => exact ⟨amid, same, ladder, left⟩
  | exhausted phase => exact nomatch hphase.symm.trans phase

/-- A candidate that is tried is on the chart. -/
theorem charted_trial (hright : chart.Right policy base goal.scope) (rule : TerminationRule τ)
    (h : Charted chart base goal reported ⟨c, t⟩) (phase : c.phase = .branching)
    (stack : c.stack = choice :: older) {random : ρ}
    (chosen : policy.chooseValue t choice.var choice.remaining c.random = .ok (value, random))
    (candidate : value ∈ choice.remaining) :
    Charted chart base goal reported
      (Search.decide rule ⟨drawn rule c random, t⟩ choice older value) := by
  obtain ⟨_, _, hstack, amid, same, ladder, known, sane, left⟩ := h.at_branching phase
  cases stack.symm.trans hstack
  exact charted_decide hright rule (amid.of_store amid.model amid.stamped rfl rfl) same ladder
    known sane left chosen candidate

/-- **EVERY MOVE** stays on the chart. -/
theorem Charted.moves (hright : chart.Right policy base goal.scope)
    (h : Charted chart base goal reported s) {found : Option Solution}
    (hmove : Moves policy rule s found s') :
    Charted chart base goal (reported ++ found.toList) s' := by
  have hsame : reported ++ (none : Option Solution).toList = reported := List.append_nil _
  cases hmove with
  | propagated phase run =>
      obtain ⟨amid, same, ladder, place, left⟩ := h.at_propagating phase
      have hcharted := charted_propagate hright amid same ladder place left
      rwa [Search.propagate_of_ok run, ← hsame] at hcharted
  | inconsistent phase run =>
      obtain ⟨amid, same, ladder, place, left⟩ := h.at_propagating phase
      have hcharted := charted_propagate hright amid same ladder place left
      rwa [propagate_of_error run, ← hsame] at hcharted
  | stopped phase stop finished =>
      obtain ⟨regions, left⟩ := h.left
      rw [hsame]
      exact charted_of_finish finished left
  -- the new choice point offers all values of its variable, so its region is the place itself
  | @opened c t v phase chosen owned =>
      obtain ⟨amid, same, ladder, place, sane, left⟩ := h.at_selecting phase
      have hself := Family.narrowed_self t.domains.get v
      rw [hsame]
      refine .branching rfl (amid.of_store amid.model amid.stamped rfl rfl) same rfl ladder
        (hright.opened amid.model place (same ▸ chosen)) sane ?_
      change chart.left reported (Family.narrowed t.domains.get v (t.domains.get v) :: _)
      rw [hself]
      exact left
  -- the place is given up: nothing in it can be completed
  | @incomplete c t u phase chosen check =>
      obtain ⟨amid, same, ladder, place, sane, left⟩ := h.at_selecting phase
      obtain ⟨amid, ladder, hregions, hle⟩ := charted_checked amid ladder check
      rw [hsame]
      have hmodel := amid.model.trans (evolves_note u .noCompletion).toSameModel
      refine .backtracking rfl (amid.of_store hmodel amid.stamped rfl rfl) same ladder ?_
      exact hright.dropped (hregions ▸ left)
  -- the place held one tuple only, which has been reported
  | @reported c t u x phase chosen check read =>
      obtain ⟨amid, same, ladder, place, sane, left⟩ := h.at_selecting phase
      obtain ⟨amid, ladder, hregions, hle⟩ := charted_checked amid ladder check
      have hmodel := amid.model.trans
        (evolves_note u (.solution (c.statistics.solutions + 1) x)).toSameModel
      refine .backtracking rfl (amid.of_store hmodel amid.stamped rfl rfl) same ladder ?_
      exact hright.reported (same ▸ read) (hright.shrunk (hregions ▸ left) hle)
  | @reportedLast c t u x s phase chosen check read finished =>
      obtain ⟨amid, same, ladder, place, sane, left⟩ := h.at_selecting phase
      obtain ⟨_, _, hregions, hle⟩ := charted_checked amid ladder check
      exact charted_of_finish finished
        (hright.reported (same ▸ read) (hright.shrunk (hregions ▸ left) hle))
  -- a search that branches has a choice point, so this case cannot arise
  | unopened phase stack =>
      obtain ⟨choice, older, hstack, _⟩ := h.at_branching phase
      exact nomatch stack.symm.trans hstack
  | tried phase stack chosen candidate assigned =>
      have hcharted := charted_trial hright rule h phase stack chosen candidate
      rwa [decide_eq, assigned, ← hsame] at hcharted
  | refused phase stack chosen candidate assigned =>
      have hcharted := charted_trial hright rule h phase stack chosen candidate
      rwa [decide_eq, assigned, ← hsame] at hcharted
  | resumed phase undone =>
      obtain ⟨amid, same, ladder, left⟩ := h.at_backtracking phase
      rw [hsame]
      rcases charted_undone hright amid same ladder left undone with ⟨hnil, _⟩ | hcharted
      · cases hnil
      · exact hcharted
  | completed phase undone finished =>
      obtain ⟨regions, left⟩ := h.left
      rw [hsame]
      exact charted_of_finish finished left
  | exhausted phase => rwa [hsame]

/-! ## Courses -/

/-- A search that has begun is on the chart, with one region left. -/
theorem Begun.charted {begun : Search ρ τ} (h : Begun base goal begun)
    (place : chart.place base.domains.checkpoint) (left : chart.left [] [base.domains.get]) :
    Charted chart base goal [] begun := by
  cases h with
  | underway phase amid same stack remembers =>
      refine .propagating phase amid same ?_ ?_ ?_
      · rw [stack, remembers.domains]
        exact .ground (Domains.depth_checkpoint _) (Domains.restore_checkpoint _)
      · rw [remembers.domains]
        exact place
      · rw [stack, remembers.domains, Domains.get_checkpoint]
        exact left
  | ended phase root status returned =>
      exact .exhausted phase (status ▸ Option.some_ne_none _) left

theorem Charted.changed (h : Charted chart base goal reported s) (termination : τ) :
    Charted chart base goal reported
      ⟨{ s.control with termination := termination }, s.store⟩ := by
  cases h with
  | propagating phase amid same ladder place left =>
      exact .propagating phase (amid.changed termination) same ladder place left
  | selecting phase amid same ladder place sane left =>
      exact .selecting phase (amid.changed termination) same ladder place sane left
  | branching phase amid same stack ladder known sane left =>
      exact .branching phase (amid.changed termination) same stack ladder known sane left
  | backtracking phase amid same ladder left =>
      exact .backtracking phase (amid.changed termination) same ladder left
  | exhausted phase status left => exact .exhausted phase status left

/-- **A COURSE** that begins on a right chart stays on it. -/
theorem Course.charted {begun : Search ρ τ} {opened : Nat}
    (hright : chart.Right policy base goal.scope) (hbegun : Charted chart base goal [] begun)
    (h : Course policy rule begun reported opened s) : Charted chart base goal reported s := by
  induction h with
  | begun => exact hbegun
  | moved _ move ih => exact ih.moves hright (step_moves move)
  | changed termination _ ih => exact ih.changed termination
  | summarized _ summary ih =>
      rcases summarize_cases summary with rfl | hfinish
      · exact ih
      · obtain ⟨regions, left⟩ := ih.left
        exact charted_of_finish hfinish left

end Search

end ConstraintSolver
