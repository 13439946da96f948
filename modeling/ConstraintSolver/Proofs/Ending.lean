import ConstraintSolver.Proofs.Refinement

/-! # Ending — every search comes to an end

    Each decision takes a candidate from a choice point and fixes a variable
    that was not fixed.  So there is a number which every step of a search
    lowers (`stepsLeft`): the most steps there are below the present state,
    and below each of the candidates that are left at the choice points.  All
    this needs of a policy is that the variables it chooses have not been
    fixed (`Policy.ChoosesUnfixed`).

    When a search is begun this number is not larger than the number of steps
    it may take in one go, so it is never cut short (`Waning.run`).  Run
    without a pause it comes to an end, unless the policy breaks a rule
    (`Waning.exists_runs`). -/

namespace ConstraintSolver

open Constraint Store

/-- The variables which the policy chooses are unfixed. -/
def Policy.ChoosesUnfixed {ρ : Type} (policy : Policy ρ) : Prop :=
  ∀ (s : Store) (scope : List Variable) (v : Variable),
    policy.chooseVariable s scope = .ok (some v) → (s.domain v).isFixed = false

/-- The built-in policies choose unfixed variables. -/
theorem Policy.choosesUnfixed_of {ρ : Type} [RandomSource ρ] (onVariable : VariableChoice)
    (onValue : ValueChoice) : (Policy.of onVariable onValue : Policy ρ).ChoosesUnfixed :=
  fun _ _ _ h => isFixed_of_choose h

namespace Search

variable {ρ τ : Type}

/-! ## What a step does not change -/

/-- What a search looks for, and how many steps it may take in one go, is the same; and
    what never stops it will not do so later. -/
structure Steady (rule : TerminationRule τ) (c c' : SearchControl ρ τ) : Prop where
  goal : c'.goal = c.goal
  patience : c'.patience = c.patience
  endless : rule.NeverStops c.termination → rule.NeverStops c'.termination
  unstopped : rule.NeverStops c.termination → c.status ≠ some .terminated →
    c'.status ≠ some .terminated

variable {c c' : SearchControl ρ τ} {s t : Search ρ τ} {store : Store} {policy : Policy ρ}
  {rule : TerminationRule τ} {found : Option Solution}

theorem Steady.trans {c'' : SearchControl ρ τ} (h : Steady rule c c') (h' : Steady rule c' c'') :
    Steady rule c c'' :=
  ⟨h'.goal.trans h.goal, h'.patience.trans h.patience, fun hc => h'.endless (h.endless hc),
    fun hc hstatus => h'.unstopped (h.endless hc) (h.unstopped hc hstatus)⟩

/-- The search goes on with the same condition. -/
theorem steady_of (goal : c'.goal = c.goal) (patience : c'.patience = c.patience)
    (termination : c'.termination = c.termination) (status : c'.status = c.status) :
    Steady rule c c' :=
  ⟨goal, patience, termination ▸ id, fun _ h => status ▸ h⟩

/-- Ending a search. -/
theorem finish_ok {status : SearchStatus} (h : finish s status = (.ok (), t)) :
    t.control.phase = .exhausted ∧ t.control.status = some status ∧
      t.control.statistics.solutions = s.control.statistics.solutions ∧
      t.control.goal = s.control.goal := by
  obtain ⟨c, store⟩ := s
  rw [finish] at h
  split at h
  · cases h
  · cases h
    exact ⟨rfl, rfl, rfl, rfl⟩

/-- A search that ends still looks for the same. -/
theorem steady_finish {status : SearchStatus} (h : finish ⟨c', store⟩ status = (.ok (), t))
    (hc : Steady rule c c') (hstatus : rule.NeverStops c.termination → status ≠ .terminated) :
    Steady rule c t.control := by
  rw [finish] at h
  split at h
  · cases h
  · cases h
    exact ⟨hc.goal, hc.patience, hc.endless,
      fun hnever _ heq => hstatus hnever (Option.some.inj heq)⟩

theorem steady_propagate (rule : TerminationRule τ) (c : SearchControl ρ τ) (store : Store) :
    Steady rule c (Search.propagate ⟨c, store⟩).control := by
  rw [Search.propagate]
  split
  · exact steady_of rfl rfl rfl rfl
  · exact steady_of rfl rfl rfl rfl

/-- A search that goes back still looks for the same. -/
theorem steady_backtrack (h : Search.backtrack ⟨c, store⟩ = (.ok (), t)) :
    Steady rule c t.control := by
  rw [Search.backtrack] at h
  split at h
  · cases h
  · exact steady_finish h (steady_of rfl rfl rfl rfl) (by rintro _ ⟨⟩)
  · cases h
    exact steady_of rfl rfl rfl rfl

/-- A decision is told to the condition, and changes nothing else of this. -/
theorem steady_decide (rule : TerminationRule τ) (choice : ChoicePoint) (older : List ChoicePoint)
    (value : Int) : Steady rule c (Search.decide rule ⟨c, store⟩ choice older value).control := by
  rw [decide_eq]
  split
  · exact ⟨rfl, rfl, fun h => h.decided, fun _ h => h⟩
  · exact ⟨rfl, rfl, fun h => h.decided, fun _ h => h⟩

/-- A search that branches still looks for the same. -/
theorem steady_branch (h : Search.branch policy rule ⟨c, store⟩ = (.ok (), t)) :
    Steady rule c t.control := by
  rcases branch_ok h with ⟨_, rfl⟩ | ⟨choice, older, value, random, _, rfl⟩
  · exact steady_of rfl rfl rfl rfl
  · have hrandom : Steady rule c { c with random := random } := steady_of rfl rfl rfl rfl
    exact hrandom.trans (steady_decide rule choice older value)

/-- A search that reports still looks for the same. -/
theorem steady_report (h : Search.report ⟨c, store⟩ = (.ok found, t)) :
    Steady rule c t.control := by
  cases hread : readSolution store c.goal.scope with
  | error e =>
      rw [Search.report] at h
      simp only [hread] at h
      cases h
  | ok entries =>
      rw [report_eq (x := ⟨entries⟩) hread] at h
      split at h
      · split at h
        · cases h
        · rename_i hend
          cases h
          exact steady_finish hend (steady_of rfl rfl rfl rfl) (by rintro _ ⟨⟩)
      · cases h
        exact steady_of rfl rfl rfl rfl

/-- A search that selects still looks for the same. -/
theorem steady_select (h : Search.select policy ⟨c, store⟩ = (.ok found, t)) :
    Steady rule c t.control := by
  rw [Search.select] at h
  split at h
  · cases h
  · split at h
    · cases h
      exact steady_of rfl rfl rfl rfl
    · cases h
  · split at h
    · cases h
    · exact steady_report h
    · cases h
      exact steady_of rfl rfl rfl rfl

theorem steady_unlessStopped {go : Search ρ τ → Except Misuse (Option Solution) × Search ρ τ}
    (hgo : ∀ termination, go ⟨{ c with termination := termination }, store⟩ = (.ok found, t) →
      Steady rule { c with termination := termination } t.control)
    (h : unlessStopped rule ⟨c, store⟩ go = (.ok found, t)) : Steady rule c t.control := by
  rw [unlessStopped] at h
  cases hstop : rule.shouldStop c.termination with
  | mk stop termination =>
      have hasked : Steady rule c { c with termination := termination } := by
        refine ⟨rfl, rfl, fun hc => ?_, fun _ h => h⟩
        have hnever := hc.asked
        rwa [hstop] at hnever
      rw [hstop] at h
      cases stop with
      | true =>
          refine steady_finish (of_silently h) hasked fun hc => ?_
          have hnow := hc.now
          rw [hstop] at hnow
          cases hnow
      | false => exact hasked.trans (hgo termination h)

/-- **A STEP** keeps what the search looks for, and the promise not to stop it. -/
theorem steady_step (h : s.step policy rule = (.ok found, t)) :
    Steady rule s.control t.control := by
  obtain ⟨c, store⟩ := s
  rw [Search.step] at h
  split at h
  · cases h
    exact steady_propagate rule c store
  · exact steady_unlessStopped (fun _ => steady_select) h
  · exact steady_unlessStopped (fun _ hgo => steady_branch (of_silently hgo)) h
  · exact steady_backtrack (of_silently h)
  · cases h
    exact steady_of rfl rfl rfl rfl

/-- A run does, too. -/
theorem steady_run {steps : Nat} {answer : Answer}
    (h : Search.run policy rule steps s = (.ok answer, t)) : Steady rule s.control t.control := by
  replace h := ran_of_run h
  induction h with
  | ended => exact steady_of rfl rfl rfl rfl
  | found _ step => exact steady_step step
  | silent _ step _ ih => exact (steady_step step).trans ih

end Search

/-! ## Steps that are left -/

/-- The number of variables with more than one value. -/
def Domains.unfixedCount (D : Domains) : Nat :=
  D.allVariables.countP fun v => !(D.get v).isFixed

/-- The most steps there are below the candidates that are left, where the domains have
    at most `d` values and `n` variables are unfixed at the bottom. -/
def owed (d n : Nat) : List ChoicePoint → Nat
  | [] => 0
  | choice :: older =>
      choice.remaining.size * (2 + Search.stepsBelow d (n - older.length)) + owed d n older

/-- The most steps a search can take until it is over. -/
def SearchControl.stepsLeft {ρ τ : Type} (d n : Nat) (c : SearchControl ρ τ) : Nat :=
  match c.phase with
  | .propagating => Search.stepsBelow d (n - c.stack.length + 1) + 2 + owed d n c.stack
  | .selecting => d * (2 + Search.stepsBelow d (n - c.stack.length)) + 3 + owed d n c.stack
  | .branching => 1 + owed d n c.stack
  | .backtracking => 2 + owed d n c.stack
  | .exhausted => 0

namespace Search

variable {ρ τ : Type}

/-- The domains have at most `d` values, and at most `n` variables are unfixed, less
    the number of open choice points. No domain has become empty. -/
structure Roomy (base : Store) (d n : Nat) (D : Domains) : Prop where
  sizes : ∀ v, (D.get v).size ≤ d
  keeps : ∀ v, (∃ x, x ∈ base.domain v) → ∃ x, x ∈ D.get v
  unfixed : D.unfixedCount + D.depth ≤ n + (base.depth + 1)

/-- The variable of a choice point was unfixed when it was chosen. -/
structure Branched (base : Store) (d n : Nat) (D : Domains) (choice : ChoicePoint) : Prop
    extends Roomy base d n D where
  free : (D.get choice.var).isFixed = false

variable {base t u : Store} {d n : Nat} {D E : Domains} {stack older : List ChoicePoint}

/-- A snapshot is open for every choice point, and one for the search. -/
theorem Ladder.depth_eq {P : Domains → ChoicePoint → Prop} (h : Ladder base P D stack) :
    D.depth = stack.length + (base.depth + 1) := by
  induction h with
  | ground depth back => simpa using depth
  | @rung D choice older saved taken number sane depth known below ih =>
      have hres := Domains.restored D (k := saved.depth) (by omega)
      rw [hres.depth] at ih
      rw [List.length_cons]
      omega

/-- **WANING**: the search is at a place where the steps that are left can be
    counted. -/
inductive Waning (base : Store) (d n : Nat) (s : Search ρ τ) : Prop
  | propagating (phase : s.control.phase = .propagating) (amid : Amid base s)
      (ladder : Ladder base (Branched base d n) s.store.domains s.control.stack)
      (roomy : Roomy base d n s.store.domains) (tidy : s.store.Tidy)
  | selecting (phase : s.control.phase = .selecting) (amid : Amid base s)
      (ladder : Ladder base (Branched base d n) s.store.domains s.control.stack)
      (roomy : Roomy base d n s.store.domains) (drained : s.store.Drained)
  | branching {choice : ChoicePoint} {older : List ChoicePoint}
      (phase : s.control.phase = .branching) (amid : Amid base s)
      (stack : s.control.stack = choice :: older)
      (ladder : Ladder base (Branched base d n) s.store.domains older)
      (branched : Branched base d n s.store.domains choice) (drained : s.store.Drained)
  | backtracking (phase : s.control.phase = .backtracking) (amid : Amid base s)
      (ladder : Ladder base (Branched base d n) s.store.domains s.control.stack)
  | exhausted (phase : s.control.phase = .exhausted)

/-- The search may go on, with less than this number of steps left. -/
def Wanes (base : Store) (d n bound : Nat) (s : Search ρ τ) : Prop :=
  Waning base d n s ∧ s.control.stepsLeft d n < bound

variable {c : SearchControl ρ τ} {s s' : Search ρ τ} {bound : Nat}

/-- A search that is over has no steps left. -/
theorem wanes_of_exhausted (h : s.control.phase = .exhausted) (hbound : 0 < bound) :
    Wanes base d n bound s := by
  refine ⟨.exhausted h, ?_⟩
  rw [SearchControl.stepsLeft, h]
  exact hbound

/-- A search that goes back has the steps left which it owes its choice points. -/
theorem wanes_backtracking (amid : Amid base s)
    (ladder : Ladder base (Branched base d n) s.store.domains s.control.stack)
    (hphase : s.control.phase = .backtracking) (hbound : 2 + owed d n s.control.stack < bound) :
    Wanes base d n bound s := by
  refine ⟨.backtracking hphase amid ladder, ?_⟩
  rw [SearchControl.stepsLeft, hphase]
  exact hbound

/-- Removing values makes no room. -/
theorem Roomy.evolves (h : Roomy base d n t.domains) (hev : Evolves t u) (hkeep : KeepsValues t u)
    (hcount : u.unfixedCount ≤ t.unfixedCount) : Roomy base d n u.domains := by
  refine ⟨fun v => Nat.le_trans (Domain.size_mono (hev.shrinks v)) (h.sizes v),
    fun v hv => hkeep v (h.keeps v hv), ?_⟩
  rw [hev.retraces.depth]
  exact Nat.le_trans (Nat.add_le_add_right hcount _) h.unfixed

/-! ## One step less -/

/-- A search that propagates has less steps left. -/
theorem wanes_propagate (amid : Amid base ⟨c, t⟩)
    (ladder : Ladder base (Branched base d n) t.domains c.stack)
    (roomy : Roomy base d n t.domains) (tidy : t.Tidy) :
    Wanes base d n (stepsBelow d (n - c.stack.length + 1) + 2 + owed d n c.stack)
      (Search.propagate ⟨c, t⟩) := by
  have hev := evolves_propagate t
  cases hprop : t.propagate with
  | mk result u =>
      rw [hprop] at hev
      have hmodel := amid.model.trans hev.toSameModel
      have hst := hev.retraces.stamped amid.stamped
      have hladder := (ladder.retraces amid.stamped hev.retraces).1
      cases result with
      | error why =>
          rw [propagate_of_error hprop]
          have hmodel' := hmodel.trans (evolves_note u (.propagationFailed why)).toSameModel
          refine wanes_backtracking (amid.of_store hmodel' hst rfl rfl) hladder rfl ?_
          rw [stepsBelow]
          change 2 + owed d n c.stack < _
          omega
      | ok _ =>
          rw [Search.propagate_of_ok hprop]
          -- success leaves every variable a value and no more variables unfixed
          have hroomy := roomy.evolves hev (keepsValues_propagate hprop)
            (unfixedCount_propagate hprop)
          refine ⟨.selecting rfl (amid.of_store hmodel hst rfl rfl) hladder hroomy
            (tidy.drained hprop), ?_⟩
          change d * (2 + stepsBelow d (n - c.stack.length)) + 3 + owed d n c.stack < _
          rw [stepsBelow]
          omega

/-- A decision uses up a candidate, and what is left of it is below the steps that were
    counted for the candidate. -/
theorem wanes_decide (rule : TerminationRule τ) {choice : ChoicePoint} (amid : Amid base ⟨c, t⟩)
    (ladder : Ladder base (Branched base d n) t.domains older)
    (branched : Branched base d n t.domains choice) (drained : t.Drained) {value : Int}
    (hvalue : value ∈ choice.remaining) :
    Wanes base d n (1 + owed d n (choice :: older))
      (Search.decide rule ⟨c, t⟩ choice older value) := by
  have hev := evolves_assign (t.snapshot.2.note (.decision choice.var value (older.length + 1)))
    choice.var value
  have hknown : Branched base d n t.domains.settled
      ⟨choice.var, choice.remaining.prune (.except value), some t.snapshot.1⟩ :=
    ⟨⟨branched.sizes, branched.keeps, branched.unfixed⟩, branched.free⟩
  have hsaved : (t.snapshot.2.note (.decision choice.var value (older.length + 1))).Tidy :=
    ⟨drained.quiet, drained.agenda⟩
  have hfewer := Nat.mul_le_mul_right (2 + stepsBelow d (n - older.length))
    (Nat.succ_le_of_lt (Domain.size_except_lt hvalue))
  rw [Nat.succ_mul] at hfewer
  rw [decide_eq]
  cases hassign : (t.snapshot.2.note (.decision choice.var value (older.length + 1))).assign
      choice.var value with
  | mk result u =>
      rw [hassign] at hev
      obtain ⟨hmodel, hst, hladder, _⟩ :=
        ladder_decided amid.model amid.stamped drained.failure ladder rule c hknown hev
      cases result with
      | error e =>
          refine wanes_backtracking (amid.of_store hmodel hst rfl rfl) hladder rfl ?_
          change 2 + owed d n (_ :: older) < _
          simp only [owed]
          omega
      | ok _ =>
          have hcount : u.unfixedCount < t.snapshot.2.unfixedCount :=
            unfixedCount_assign (s := t.snapshot.2.note _) hassign branched.free
          change u.unfixedCount < t.unfixedCount at hcount
          have hdepth : u.domains.depth = t.domains.depth + 1 :=
            hev.retraces.depth.trans (Domains.depth_checkpoint _)
          have hunfixed : t.unfixedCount + t.domains.depth ≤ n + (base.depth + 1) :=
            branched.unfixed
          have hlevel := Ladder.depth_eq ladder
          have hroomy : Roomy base d n u.domains := by
            refine ⟨fun v => Nat.le_trans (Domain.size_mono (hev.shrinks v)) (branched.sizes v),
              fun v hv => keepsValues_assign hassign v (branched.keeps v hv), ?_⟩
            change u.unfixedCount + u.domains.depth ≤ _
            omega
          have htidy := hsaved.assign choice.var value
          rw [hassign] at htidy
          refine ⟨.propagating rfl (amid.of_store hmodel hst rfl rfl) hladder hroomy htidy, ?_⟩
          -- one variable more is fixed, so the steps below it are those counted for a candidate
          have hnext : n - (older.length + 1) + 1 = n - older.length := by omega
          change stepsBelow d (n - (older.length + 1) + 1) + 2 + owed d n (_ :: older) < _
          simp only [owed, hnext]
          omega

/-- A search that branches has less steps left, for one candidate less is owed. -/
theorem wanes_branch {policy : Policy ρ} (rule : TerminationRule τ) {choice : ChoicePoint}
    (amid : Amid base ⟨c, t⟩) (hstack : c.stack = choice :: older)
    (ladder : Ladder base (Branched base d n) t.domains older)
    (branched : Branched base d n t.domains choice) (drained : t.Drained)
    (hok : Search.branch policy rule ⟨c, t⟩ = (.ok (), s')) :
    Wanes base d n (1 + owed d n (choice :: older)) s' := by
  rcases branch_ok hok with ⟨hnil, _⟩ | ⟨_, _, value, random, htries, rfl⟩
  · cases hstack.symm.trans hnil
  · cases hstack.symm.trans htries.stack
    refine wanes_decide rule ?_ ladder branched drained htries.candidate
    exact amid.of_store amid.model amid.stamped rfl rfl

/-- A search that reports goes back or ends, and so has less steps left. -/
theorem wanes_report (amid : Amid base ⟨c, t⟩)
    (ladder : Ladder base (Branched base d n) t.domains c.stack) {found : Option Solution}
    (hbound : 2 + owed d n c.stack < bound) (hok : Search.report ⟨c, t⟩ = (.ok found, s')) :
    Wanes base d n bound s' := by
  cases hread : readSolution t c.goal.scope with
  | error e =>
      rw [Search.report] at hok
      simp only [hread] at hok
      cases hok
  | ok entries =>
      rw [report_eq (x := ⟨entries⟩) hread] at hok
      split at hok
      · split at hok
        · cases hok
        · rename_i hfinish
          cases hok
          exact wanes_of_exhausted (finish_ok hfinish).1 (by omega)
      · cases hok
        have hmodel := amid.model.trans
          (evolves_note t (.solution (c.statistics.solutions + 1) ⟨entries⟩)).toSameModel
        exact wanes_backtracking (amid.of_store hmodel amid.stamped rfl rfl) ladder rfl hbound

/-- A search that selects opens a choice point for an unfixed variable, for which there is room,
    or reports. -/
theorem wanes_select {policy : Policy ρ} (hpolicy : policy.ChoosesUnfixed)
    (amid : Amid base ⟨c, t⟩) (ladder : Ladder base (Branched base d n) t.domains c.stack)
    (roomy : Roomy base d n t.domains) (drained : t.Drained) {found : Option Solution}
    (hok : Search.select policy ⟨c, t⟩ = (.ok found, s')) :
    Wanes base d n (d * (2 + stepsBelow d (n - c.stack.length)) + 3 + owed d n c.stack) s' := by
  obtain ⟨u, hcomplete, hunmoved⟩ := (Alike.refl t).hasCompletion drained amid.stamped
  have hev := hunmoved.evolves
  have hmodel := amid.model.trans hev.toSameModel
  have hst := hev.retraces.stamped amid.stamped
  have hladder := (ladder.retraces amid.stamped hev.retraces).1
  rw [Search.select] at hok
  simp only [hcomplete] at hok
  split at hok
  · cases hok
  · rename_i v hchosen
    split at hok
    · cases hok
      refine ⟨.branching rfl (amid.of_store amid.model amid.stamped rfl rfl) rfl ladder
        ⟨roomy, hpolicy t _ v hchosen⟩ drained, ?_⟩
      change 1 + owed d n (⟨v, t.domain v, none⟩ :: c.stack) < _
      -- a choice point owes a number of steps for each of its candidates, and has at most `d`
      have hsize := Nat.mul_le_mul_right (2 + stepsBelow d (n - c.stack.length)) (roomy.sizes v)
      simp only [owed, Store.domain]
      omega
    · cases hok
  · cases hheld : t.completable with
    | true =>
        simp only [hheld] at hok
        exact wanes_report (amid.of_store hmodel hst rfl rfl) hladder (by omega) hok
    | false =>
        simp only [hheld] at hok
        cases hok
        have hmodel' := hmodel.trans (evolves_note u .noCompletion).toSameModel
        refine wanes_backtracking (amid.of_store hmodel' hst rfl rfl) hladder rfl ?_
        change 2 + owed d n c.stack < _
        omega

/-- Undoing trials only drops choice points. -/
theorem owed_undoTrial {stack' : List ChoicePoint} (h : undoTrial t stack = (.ok stack', u)) :
    owed d n stack' ≤ owed d n stack := by
  induction stack generalizing t with
  | nil =>
      cases h
      exact Nat.le_refl _
  | cons choice older ih =>
      rw [undoTrial] at h
      split at h
      · cases h
      · split at h
        · exact Nat.le_trans (ih h) (Nat.le_add_left _ _)
        · cases h
          exact Nat.le_refl _

/-- A search that goes back drops choice points which owe nothing. -/
theorem wanes_backtrack (amid : Amid base ⟨c, t⟩)
    (ladder : Ladder base (Branched base d n) t.domains c.stack)
    (hok : Search.backtrack ⟨c, t⟩ = (.ok (), s')) :
    Wanes base d n (2 + owed d n c.stack) s' := by
  rw [Search.backtrack] at hok
  rcases undoTrial_climbs (R := fun _ => True) (fun _ _ _ => True.intro) c.stack amid.model
      amid.stamped ladder True.intro with
    ⟨u, hundo, _⟩ | ⟨choice, older, u, hundo, _, hclimbed, _⟩
  · simp only [hundo] at hok
    exact wanes_of_exhausted (finish_ok hok).1 (by omega)
  -- undoing a trial owes no more than before, and the step itself is one less
  · have howed := owed_undoTrial (d := d) (n := n) hundo
    simp only [hundo] at hok
    cases hok
    have hbranched : Branched base d n u.domains { choice with saved := none } :=
      ⟨hclimbed.known.toRoomy, hclimbed.known.free⟩
    have hdrained : u.Drained :=
      ⟨⟨hclimbed.quiet, hclimbed.agenda ▸ Agenda.consistent_empty⟩, hclimbed.failure,
        hclimbed.agenda ▸ Agenda.toList_empty⟩
    refine ⟨.branching rfl (amid.of_store hclimbed.model hclimbed.stamped rfl rfl) rfl
      hclimbed.below hbranched hdrained, ?_⟩
    change 1 + owed d n ({ choice with saved := none } :: older) < _
    omega

/-- A search that is stopped has no steps left. -/
theorem wanes_unlessStopped (rule : TerminationRule τ) (hbound : 0 < bound)
    {go : Search ρ τ → Except Misuse (Option Solution) × Search ρ τ} {found : Option Solution}
    (hgo : ∀ termination, go ⟨{ c with termination := termination }, t⟩ = (.ok found, s') →
      Wanes base d n bound s')
    (hok : unlessStopped rule ⟨c, t⟩ go = (.ok found, s')) : Wanes base d n bound s' := by
  rw [unlessStopped] at hok
  split at hok
  · exact wanes_of_exhausted (finish_ok (of_silently hok)).1 hbound
  · exact hgo _ hok

/-- **A STEP** that goes well lowers the number of steps that are left. -/
theorem Waning.step {policy : Policy ρ} {rule : TerminationRule τ} (h : Waning base d n s)
    (hpolicy : policy.ChoosesUnfixed) (hgoing : s.control.phase ≠ .exhausted)
    {found : Option Solution} (hok : s.step policy rule = (.ok found, s')) :
    Wanes base d n (s.control.stepsLeft d n) s' := by
  obtain ⟨c, t⟩ := s
  change Wanes base d n (c.stepsLeft d n) s'
  rw [Search.step] at hok
  cases h with
  | propagating phase amid ladder roomy tidy =>
      have hphase : c.phase = .propagating := phase
      simp only [hphase] at hok
      simp only [SearchControl.stepsLeft, hphase]
      cases hok
      exact wanes_propagate amid ladder roomy tidy
  | selecting phase amid ladder roomy drained =>
      have hphase : c.phase = .selecting := phase
      simp only [hphase] at hok
      simp only [SearchControl.stepsLeft, hphase]
      refine wanes_unlessStopped rule (Nat.add_pos_left (Nat.succ_pos _) _) ?_ hok
      intro termination hgo
      have hselect := wanes_select hpolicy (amid.changed termination) ladder roomy drained hgo
      exact hselect
  | @branching choice older phase amid stack ladder branched drained =>
      have hphase : c.phase = .branching := phase
      have hstack : c.stack = choice :: older := stack
      simp only [hphase] at hok
      simp only [SearchControl.stepsLeft, hphase, hstack]
      refine wanes_unlessStopped rule (Nat.add_pos_left Nat.one_pos _) ?_ hok
      intro termination hgo
      have hbranch := of_silently hgo
      exact wanes_branch rule (amid.changed termination) hstack ladder branched drained hbranch
  | backtracking phase amid ladder =>
      have hphase : c.phase = .backtracking := phase
      simp only [hphase] at hok
      simp only [SearchControl.stepsLeft, hphase]
      exact wanes_backtrack amid ladder (of_silently hok)
  | exhausted phase => exact absurd phase hgoing

/-! ## Whole runs -/

variable {policy : Policy ρ} {rule : TerminationRule τ}

/-- Only a search that is over has no steps left. -/
theorem phase_of_stepsLeft (h : s.control.stepsLeft d n = 0) : s.control.phase = .exhausted := by
  cases hphase : s.control.phase with
  | exhausted => rfl
  | propagating => simp [SearchControl.stepsLeft, hphase] at h
  | selecting => simp [SearchControl.stepsLeft, hphase] at h
  | branching => simp [SearchControl.stepsLeft, hphase] at h
  | backtracking => simp [SearchControl.stepsLeft, hphase] at h

/-- **A RUN** with at least the steps that are left is not cut short: it ends with a
    solution, or because the search is over. -/
theorem Waning.run {steps : Nat} (h : Waning base d n s) (hpolicy : policy.ChoosesUnfixed)
    (hsteps : s.control.stepsLeft d n ≤ steps) {answer : Answer}
    (hok : Search.run policy rule steps s = (.ok answer, s')) :
    (∃ x, answer = .solution x ∧ Wanes base d n (s.control.stepsLeft d n) s') ∨
      answer = s'.control.finalAnswer ∧ s'.control.phase = .exhausted := by
  replace hok := ran_of_run hok
  induction hok with
  | ended hdone =>
      rcases hdone with rfl | hphase
      · exact Or.inr ⟨rfl, phase_of_stepsLeft (Nat.le_zero.mp hsteps)⟩
      · exact Or.inr ⟨rfl, hphase⟩
  | found going step => exact Or.inl ⟨_, rfl, h.step hpolicy going step⟩
  | silent going step _ ih =>
      -- a step that reports nothing is followed by a shorter run
      obtain ⟨ht, hlt⟩ := h.step hpolicy going step
      rcases ih ht (by omega) with ⟨x, hx, hs', hlt'⟩ | hend
      · exact Or.inl ⟨x, hx, hs', Nat.lt_trans hlt' hlt⟩
      · exact Or.inr hend

variable (rule) in
/-- **RUN WITHOUT A PAUSE**, the search comes to an end, or to a step in which the policy
    breaks a rule. -/
theorem Waning.exists_runs (h : Waning base d n s) (hpolicy : policy.ChoosesUnfixed) :
    ∃ steps xs u, steps ≤ s.control.stepsLeft d n ∧ Runs policy rule steps s xs u ∧
      (u.control.phase = .exhausted ∨
        u.control.phase ≠ .exhausted ∧ ∃ e w, u.step policy rule = (.error e, w)) := by
  induction hleft : s.control.stepsLeft d n using Nat.strongRecOn generalizing s with
  | ind left ih =>
      by_cases hphase : s.control.phase = .exhausted
      · exact ⟨0, [], s, Nat.zero_le _, .zero s, .inl hphase⟩
      · cases hstep : s.step policy rule with
        | mk result t =>
            cases result with
            | error e => exact ⟨0, [], s, Nat.zero_le _, .zero s, .inr ⟨hphase, e, t, hstep⟩⟩
            | ok found =>
                obtain ⟨ht, hlt⟩ := h.step hpolicy hphase hstep
                rw [hleft] at hlt
                obtain ⟨steps, xs, u, hsteps, hruns, hend⟩ := ih _ hlt ht rfl
                exact ⟨steps + 1, _, u, by omega,
                  .step hphase hstep (steady_step hstep).patience hruns, hend⟩

end Search

end ConstraintSolver
