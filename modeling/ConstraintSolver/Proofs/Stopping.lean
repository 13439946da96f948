import ConstraintSolver.Proofs.Faultless
import ConstraintSolver.Proofs.Unhindered

/-! # Stopping — a search that is stopped has done part of the whole

    For a scope and a random state there is one search for all solutions that
    no one stops and no one listens to (`whole`).  Every other search over
    this scope goes along with it, until it is stopped or reaches its limit
    (`Session.follows`); so what it has reported is the beginning of what the
    whole search finds.  The whole search ends, and what it finds is the same
    each time (`Totals`). -/

namespace ConstraintSolver

open Constraint Store

namespace Search

variable {ρ τ : Type} {policy : Policy ρ} {rule : TerminationRule τ}

/-! ## Runs are determined -/

/-- There is nothing after this state, because the search is over or the next step
    breaks a rule. -/
def Final (policy : Policy ρ) (rule : TerminationRule τ) (s : Search ρ τ)
    (fault : Option Misuse) : Prop :=
  match fault with
  | none => s.control.phase = .exhausted
  | some e => s.control.phase ≠ .exhausted ∧ ∃ w, s.step policy rule = (.error e, w)

/-- No step leads on from a final state. -/
theorem Final.stays {s t : Search ρ τ} {fault : Option Misuse} {found : Option Solution}
    (h : Final policy rule s fault) (hgoing : s.control.phase ≠ .exhausted)
    (hstep : s.step policy rule = (.ok found, t)) : False := by
  cases fault with
  | none => exact hgoing h
  | some e =>
      obtain ⟨_, w, herror⟩ := h
      rw [hstep] at herror
      cases herror

theorem Final.unique {s : Search ρ τ} {fault fault' : Option Misuse}
    (h : Final policy rule s fault) (h' : Final policy rule s fault') : fault' = fault := by
  cases fault with
  | none =>
      cases fault' with
      | none => rfl
      | some e => exact absurd h h'.1
  | some e =>
      obtain ⟨hgoing, w, hstep⟩ := h
      cases fault' with
      | none => exact absurd h' hgoing
      | some e' =>
          obtain ⟨_, w', hstep'⟩ := h'
          rw [hstep] at hstep'
          cases hstep'
          rfl

variable {s u U : Search ρ τ} {m n : Nat} {xs S : List Solution} {fault : Option Misuse}

/-- **A RUN IS THE BEGINNING** of the run to the end. -/
theorem Runs.rest (h : Runs policy rule m s xs u) (h' : Runs policy rule n s S U)
    (hfinal : Final policy rule U fault) :
    ∃ k ys, Runs policy rule k u ys U ∧ S = xs ++ ys := by
  induction h generalizing n S with
  | zero s => exact ⟨n, S, h', rfl⟩
  | @step m s t u found xs going taken patience later ih =>
      cases h' with
      | zero s => exact (hfinal.stays going taken).elim
      | step going' taken' patience' later' =>
          rw [taken] at taken'
          cases taken'
          obtain ⟨k, ys, hrest, heq⟩ := ih later'
          exact ⟨k, ys, hrest, by rw [heq, List.append_assoc]⟩

/-- A run to the end finds everything. -/
theorem Runs.final (h : Runs policy rule m s xs u) (h' : Runs policy rule n s S U)
    {fault' : Option Misuse} (hu : Final policy rule u fault')
    (hfinal : Final policy rule U fault) : xs = S ∧ fault' = fault := by
  obtain ⟨k, ys, hrest, heq⟩ := h.rest h' hfinal
  cases hrest with
  | zero s => exact ⟨by rw [heq, List.append_nil], hfinal.unique hu⟩
  | step going taken patience later => exact (hu.stays going taken).elim

/-! ## The whole search -/

/-- **THE WHOLE SEARCH** over a scope, before its first step. -/
def whole (scope : List Variable) (random : ρ) (base : Store) : Search ρ Unit :=
  ⟨opening ⟨scope, true, none⟩ random () base.snapshot.1 base.muted.snapshot.2,
    base.muted.snapshot.2⟩

/-- **ALL THAT IS FOUND** by the whole search, and the rule that is broken in the end, if
    there is one. -/
def Totals (policy : Policy ρ) (first : Search ρ Unit) (S : List Solution)
    (fault : Option Misuse) : Prop :=
  ∃ steps u, Runs policy .never steps first S u ∧ Final policy .never u fault

theorem Totals.rest {first u : Search ρ Unit} (h : Totals policy first S fault)
    (hruns : Runs policy .never m first xs u) : xs <+: S := by
  obtain ⟨n, U, hwhole, hfinal⟩ := h
  obtain ⟨_, ys, _, heq⟩ := hruns.rest hwhole hfinal
  exact ⟨ys, heq.symm⟩

theorem Totals.final {first u : Search ρ Unit} (h : Totals policy first S fault)
    (hruns : Runs policy .never m first xs u) {fault' : Option Misuse}
    (hu : Final policy .never u fault') : xs = S ∧ fault' = fault := by
  obtain ⟨n, U, hwhole, hfinal⟩ := h
  exact hruns.final hwhole hu hfinal

variable {base : Store} {scope : List Variable}

/-- The steps that are left to the whole search are fewer than those it may take in
    one go. -/
theorem waning_whole (hst : base.domains.Stamped) (htidy : base.Tidy) (scope : List Variable)
    (random : ρ) :
    Waning base (largestSize base) base.variableCount (whole scope random base) ∧
      (whole scope random base).control.stepsLeft (largestSize base) base.variableCount ≤
        (whole scope random base).control.patience := by
  have hamid : Amid base (whole scope random base) :=
    ⟨rfl, rfl, ⟨rfl, rfl, rfl, .refl _⟩, hst.checkpoint⟩
  have hdepth : base.domains.checkpoint.depth = base.depth + 1 := Domains.depth_checkpoint _
  refine ⟨.propagating rfl hamid (.ground hdepth (Domains.restore_checkpoint _))
    ⟨size_le_largestSize base, fun _ hv => hv, ?_⟩ ⟨htidy.quiet, htidy.agenda⟩, ?_⟩
  · change base.unfixedCount + base.domains.checkpoint.depth ≤ _
    rw [hdepth]
    exact Nat.add_le_add_right base.unfixedCount_le _
  · have hbound := stepsBelow_le (largestSize base) (base.variableCount + 1)
    change stepsBelow (largestSize base) (base.variableCount - 0 + 1) + 2 + 0 ≤
      Nat.pow (largestSize base + 8) (base.variableCount + 1 + 1)
    simp only [Nat.sub_zero, Nat.add_zero]
    omega

/-- **THE WHOLE SEARCH ENDS.** -/
theorem exists_totals (hst : base.domains.Stamped) (htidy : base.Tidy)
    (hpolicy : policy.ChoosesUnfixed) (scope : List Variable) (random : ρ) :
    ∃ S fault, Totals policy (whole scope random base) S fault := by
  obtain ⟨steps, S, u, _, hruns, hend⟩ :=
    (waning_whole hst htidy scope random).1.exists_runs .never hpolicy
  rcases hend with hover | ⟨hgoing, e, w, hstep⟩
  · exact ⟨S, none, steps, u, hruns, hover⟩
  · exact ⟨S, some e, steps, u, hruns, hgoing, w, hstep⟩

/-- In a store that has failed, the whole search finds nothing, and ends. -/
theorem totals_of_failed (policy : Policy ρ) (hst : base.domains.Stamped) {why : Inconsistency}
    (hf : base.failure = some why) (scope : List Variable) (random : ρ) :
    Totals policy (whole scope random base) [] none := by
  let t := base.muted.snapshot.2.note (.propagationFailed why)
  have hprop : base.muted.snapshot.2.propagate = (.error why, base.muted.snapshot.2) :=
    propagate_of_failed hf
  have hfirst : (whole scope random base).step policy .never =
      (.ok none, ⟨(whole scope random base).control.failed, t⟩) :=
    step_propagating rfl (propagate_of_error hprop)
  have hback := restore_of_evolves (s := base.muted) hst (evolves_note _ (.propagationFailed why))
  obtain ⟨s, hlast, hphase, hpatience, _⟩ :
      ∃ s, Search.step policy .never ⟨(whole scope random base).control.failed, t⟩ =
          (.ok none, s) ∧ s.control.phase = .exhausted ∧ s.control.patience = _ ∧ _ :=
    step_ending rfl rfl rfl hback
  refine ⟨_, s, (Runs.silent ?_ hfirst rfl).trans (.silent ?_ hlast hpatience), hphase⟩
  · exact fun h => nomatch h
  · exact fun h => nomatch h

/-- **NO RULE IS BROKEN** by a careful policy, if the variables of the scope have values
    unless the store has failed. -/
theorem Totals.faultless {random : ρ} (h : Totals policy (whole scope random base) S fault)
    (hst : base.domains.Stamped) (htidy : base.Tidy) (hcareful : policy.Careful)
    (hunfixed : policy.ChoosesUnfixed) (hscope : ∀ v ∈ scope, base.owns v = true)
    (hvalues : base.failure = none → ∀ v ∈ scope, ∃ x, x ∈ base.domain v) : fault = none := by
  cases hf : base.failure with
  | some why =>
      obtain ⟨steps, u, hruns, hfinal⟩ :=
        totals_of_failed policy hst hf scope random
      exact (h.final hruns hfinal).2.symm
  | none =>
      obtain ⟨steps, u, hruns, hfinal⟩ := h
      obtain ⟨found, w, hstep⟩ := (waning_whole hst htidy scope random).1.faultless
        (.of_ne fun h => nomatch h) hcareful hunfixed hscope (hvalues hf) hruns
      cases fault with
      | none => rfl
      | some e =>
          obtain ⟨_, w', herror⟩ := hfinal
          rw [hstep] at herror
          cases herror

/-! ## Following the whole search -/

/-- A search that was begun over the scope of the whole search, and has not done
    anything yet. -/
structure Launched (base : Store) (goal : SearchGoal) (random : ρ) (termination : τ)
    (s : Search ρ τ) : Prop where
  aim : s.control.goal = goal
  nothing : s.control.statistics.solutions = 0
  same : ¬ goal.Enough 0 → s.unhindered = whole goal.scope random base
  ended : goal.Enough 0 → s.control.phase = .exhausted ∧
    s.control.status = some .solutionLimitReached
  unstopped : s.control.status ≠ some .terminated
  endless : ∀ rule : TerminationRule τ, rule.NeverStops termination →
    rule.NeverStops s.control.termination

theorem enough_zero (goal : SearchGoal) : goal.Enough 0 ↔ goal.limit = some 0 := by
  obtain ⟨scope, all, limit⟩ := goal
  rw [SearchGoal.Enough, SearchGoal.most]
  cases all with
  | true =>
      simp only [if_true, Option.mem_def, Nat.le_zero]
      constructor
      · rintro ⟨k, hk, rfl⟩
        exact hk
      · exact fun h => ⟨0, h, rfl⟩
  | false =>
      simp only [Bool.false_eq_true, if_false, Option.mem_def, Option.some.injEq, Nat.le_zero,
        exists_eq_left']
      split
      · rename_i hzero
        exact iff_of_true rfl hzero
      · rename_i hsome
        exact iff_of_false Nat.one_ne_zero hsome

/-- **BEGINNING**: a search starts where the whole search does, or is over at once. -/
theorem launched_of_start (goal : SearchGoal) (random : ρ) (termination : τ)
    (hst : base.domains.Stamped) (hscope : ∀ v ∈ goal.scope, base.owns v = true) :
    ∃ begun : Search ρ τ, start goal random termination base = .ok begun ∧
      Begun base goal begun ∧ Launched base goal random termination begun := by
  obtain ⟨begun, hstart, hbegun⟩ := start_begun hst hscope random termination
  refine ⟨begun, hstart, hbegun, ?_⟩
  have hall : goal.scope.all base.owns = true := List.all_eq_true.mpr hscope
  rw [start] at hstart
  simp only [hall, Bool.not_true, Bool.false_eq_true, if_false] at hstart
  -- a warning about an empty scope is only told to the journal
  obtain ⟨s, hmuted, hsaved, hs⟩ : ∃ s : Store, s.muted = base.muted ∧
      s.snapshot.1 = base.snapshot.1 ∧
      (if goal.scope.isEmpty then base.note .emptyScope else base) = s := by
    by_cases hempty : goal.scope.isEmpty = true
    · exact ⟨base.note .emptyScope, rfl, rfl, if_pos hempty⟩
    · exact ⟨base, rfl, rfl, if_neg hempty⟩
  let t := (s.note (.searchStarted goal.scope.length goal.allSolutions goal.limit)).snapshot.2
  have ht : t.muted = base.muted.snapshot.2 := by
    change s.muted.snapshot.2 = _
    rw [hmuted]
  rw [hs, begin_eq goal random termination s (t := t) rfl, hsaved] at hstart
  have hlimit : (opening goal random termination base.snapshot.1 t).limitReached = true ↔
      goal.Enough 0 := by
    rw [enough_zero, SearchControl.limitReached]
    simp only [opening]
    cases goal.limit with
    | none => exact iff_of_false Bool.false_ne_true (by rintro ⟨⟩)
    | some limit => simp
  by_cases hzero : goal.Enough 0
  · rw [if_pos (hlimit.mpr hzero)] at hstart
    split at hstart
    · cases hstart
    · rename_i hfinish
      cases hstart
      obtain ⟨hphase, hstatus, hsolutions, hgoal⟩ := finish_ok hfinish
      have hsteady : ∀ rule : TerminationRule τ, Steady rule _ begun.control := fun rule =>
        steady_finish hfinish (steady_of rfl rfl rfl rfl) (by rintro _ ⟨⟩)
      exact ⟨hgoal, hsolutions, fun h => absurd hzero h,
        fun _ => ⟨hphase, hstatus⟩, by simp [hstatus], fun rule h => (hsteady rule).endless h⟩
  · rw [if_neg (fun h => hzero (hlimit.mp h))] at hstart
    cases hstart
    refine ⟨rfl, rfl, fun _ => ?_, fun h => absurd h hzero, (by rintro ⟨⟩), fun _ h => h⟩
    have hsame : (⟨opening goal random termination base.snapshot.1 t, t⟩ : Search ρ τ).unhindered =
        ⟨opening ⟨goal.scope, true, none⟩ random () base.snapshot.1 t.muted, t.muted⟩ := rfl
    rw [hsame, ht]
    rfl

/-- **FOLLOWING** the whole search: where the search is, and how it has been stopped if
    it was. -/
inductive Follows (policy : Policy ρ) (first : Search ρ Unit) (reported : List Solution)
    (s : Search ρ τ) : Prop
  /-- It is where the whole search gets to. -/
  | along {steps : Nat} (runs : Runs policy .never steps first reported s.unhindered)
      (few : ¬ s.control.goal.Enough reported.length)
      (ended : s.control.phase = .exhausted → s.control.status = some .complete)
  /-- It has reported as many solutions as asked for. -/
  | limited {steps : Nat} {u : Search ρ Unit} (runs : Runs policy .never steps first reported u)
      (phase : s.control.phase = .exhausted)
      (status : s.control.status = some .solutionLimitReached)
      (most : s.control.goal.most = some reported.length)
  /-- It was stopped before that. -/
  | stopped {steps : Nat} {u : Search ρ Unit} (runs : Runs policy .never steps first reported u)
      (phase : s.control.phase = .exhausted) (status : s.control.status = some .terminated)
      (few : ¬ s.control.goal.Enough reported.length)

variable {first : Search ρ Unit} {reported : List Solution} {t : Search ρ τ} {goal : SearchGoal}

theorem Launched.follows {random : ρ} {termination : τ}
    (h : Launched base goal random termination s) :
    Follows policy (whole goal.scope random base) [] s := by
  by_cases hzero : goal.Enough 0
  · obtain ⟨hphase, hstatus⟩ := h.ended hzero
    obtain ⟨k, hk, hle⟩ := hzero
    refine .limited (.zero _) hphase hstatus ?_
    rw [h.aim, hk, Nat.le_zero.mp hle]
    rfl
  · have hsame := h.same hzero
    have hruns : Runs policy .never 0 (whole goal.scope random base) [] s.unhindered := by
      rw [hsame]
      exact .zero _
    refine .along hruns ?_ fun hphase => ?_
    · rwa [h.aim]
    · have hstart : s.unhindered.control.phase = .propagating := by
        rw [hsame]
        rfl
      cases hphase.symm.trans hstart

/-- The number of solutions the search says it has found is right. -/
def Counts (reported : List Solution) (s : Search ρ τ) : Prop :=
  s.control.statistics.solutions = reported.length

/-- **A STEP** follows the whole search, or is the last. -/
theorem follows_step (hdeaf : policy.Deaf) (hstanding : Standing base s)
    (hgoing : s.control.phase ≠ .exhausted) (hcounts : Counts reported s)
    (hruns : Runs policy .never m first reported s.unhindered)
    (hfew : ¬ s.control.goal.Enough reported.length) {found : Option Solution}
    (hstep : s.step policy rule = (.ok found, t)) :
    Follows policy first (reported ++ found.toList) t ∧ Counts (reported ++ found.toList) t := by
  have haccords := accords_step rule hdeaf hstanding hgoing (hcounts ▸ hfew)
  have hsteady := steady_step hstep
  rw [hstep] at haccords
  rw [Counts] at hcounts ⊢
  rw [List.length_append, ← hcounts]
  -- the step of the whole search, where there is one to follow
  have hfollow : ∀ {x u}, s.unhindered.step policy .never = (.ok x, u) →
      Runs policy .never (m + 1) first (reported ++ x.toList) u := by
    intro x u htaken
    have hone : Runs policy .never 1 s.unhindered (x.toList ++ []) u :=
      .step hgoing htaken (steady_step htaken).patience (.zero u)
    rw [List.append_nil] at hone
    exact hruns.trans hone
  generalize hr : s.unhindered.step policy .never = r at haccords
  cases haccords with
  | along going =>
      obtain ⟨hsolutions, hfew', hended⟩ := going found t rfl
      refine ⟨.along (hfollow hr) ?_ hended, hsolutions⟩
      rw [List.length_append, hsteady.goal, ← hcounts, ← hsolutions]
      exact hfew'
  | @limited x _ u phase status solutions most =>
      refine ⟨.limited (hfollow hr) phase status ?_, solutions⟩
      rw [hsteady.goal, most, solutions, List.length_append, hcounts]
      rfl
  | stopped phase status solutions stops =>
      rw [Option.toList_none, List.append_nil]
      exact ⟨.stopped hruns phase status (hsteady.goal ▸ hfew), solutions⟩

/-- A step that breaks a rule is the end of the whole search, too. -/
theorem final_of_step_error (hdeaf : policy.Deaf) (hstanding : Standing base s)
    (hgoing : s.control.phase ≠ .exhausted) (hcounts : Counts reported s)
    (hfew : ¬ s.control.goal.Enough reported.length) {e : Misuse}
    (hstep : s.step policy rule = (.error e, t)) : Final policy .never s.unhindered (some e) := by
  have haccords := accords_step rule hdeaf hstanding hgoing (hcounts ▸ hfew)
  rw [hstep] at haccords
  generalize hr : s.unhindered.step policy .never = r at haccords
  cases haccords with
  | along going => exact ⟨hgoing, _, hr⟩

/-- **A RUN** that goes well follows the whole search. -/
theorem Follows.run (hdeaf : policy.Deaf) {steps : Nat} (h : Follows policy first reported s)
    (hcounts : Counts reported s) (hstanding : Standing base s) {answer : Answer}
    (hrun : Search.run policy rule steps s = (.ok answer, t)) :
    Follows policy first (reported ++ answer.solutions) t ∧
      Counts (reported ++ answer.solutions) t := by
  replace hrun := ran_of_run hrun
  induction hrun with
  | ended =>
      rw [solutions_finalAnswer, List.append_nil]
      exact ⟨h, hcounts⟩
  | found going step =>
      cases h with
      | along runs few ended => exact follows_step hdeaf hstanding going hcounts runs few step
      | limited runs phase status most => exact absurd phase going
      | stopped runs phase status few => exact absurd phase going
  | silent going step _ ih =>
      cases h with
      | along runs few ended =>
          obtain ⟨hu, hcounts'⟩ := follows_step hdeaf hstanding going hcounts runs few step
          rw [Option.toList_none, List.append_nil] at hu hcounts'
          exact ih hu hcounts' (hstanding.step step)
      | limited runs phase status most => exact absurd phase going
      | stopped runs phase status few => exact absurd phase going

/-- A run that breaks a rule has come to the end of the whole search. -/
theorem Follows.run_error (hdeaf : policy.Deaf) {steps : Nat}
    (h : Follows policy first reported s) (hcounts : Counts reported s)
    (hstanding : Standing base s) {e : Misuse}
    (hrun : Search.run policy rule steps s = (.error e, t)) :
    ∃ steps u, Runs policy .never steps first reported u ∧ Final policy .never u (some e) := by
  induction steps generalizing s with
  | zero => cases hrun
  | succ steps ih =>
      rw [Search.run] at hrun
      split at hrun
      · cases hrun
      · rename_i hgoing
        cases h with
        | along runs few ended =>
            cases hstep : s.step policy rule with
            | mk result u =>
                rw [hstep] at hrun
                cases result with
                | error e' =>
                    cases hrun
                    exact ⟨_, _, runs,
                      final_of_step_error hdeaf hstanding hgoing hcounts few hstep⟩
                | ok found =>
                    obtain ⟨hu, hcounts'⟩ :=
                      follows_step hdeaf hstanding hgoing hcounts runs few hstep
                    cases found with
                    | some x => cases hrun
                    | none =>
                        rw [Option.toList_none, List.append_nil] at hu hcounts'
                        exact ih hu hcounts' (hstanding.step hstep) hrun
        -- a search that was limited or stopped is over
        | limited runs phase status most => exact absurd phase hgoing
        | stopped runs phase status few => exact absurd phase hgoing

theorem Follows.summarize (h : Follows policy first reported s) (hcounts : Counts reported s)
    {summary : SearchSummary} (hok : s.summarize = (.ok summary, t)) :
    Follows policy first reported t ∧ Counts reported t := by
  rw [Search.summarize] at hok
  split at hok
  · cases hok
    exact ⟨h, hcounts⟩
  · rename_i hnone
    split at hok
    · cases hok
    · rename_i hfinish
      cases hok
      obtain ⟨hphase, hstatus, hsolutions, hgoal⟩ := finish_ok hfinish
      cases h with
      | along runs few ended =>
          exact ⟨.stopped runs hphase hstatus (hgoal ▸ few), hsolutions.trans hcounts⟩
      | limited runs phase status most => cases hnone.symm.trans status
      | stopped runs phase status few => cases hnone.symm.trans status

/-- **EVERY SESSION FOLLOWS** the whole search. -/
theorem Session.follows (hdeaf : policy.Deaf) {begun : Search ρ τ} (hbegun : Begun base goal begun)
    (hfollows : Follows policy first [] begun) (hcounts : Counts [] begun)
    (h : Session policy rule begun reported s) :
    Follows policy first reported s ∧ Counts reported s := by
  induction h with
  | begun => exact ⟨hfollows, hcounts⟩
  | next hsession hnext ih => exact ih.1.run hdeaf ih.2 (hsession.standing hbegun) hnext
  | changed termination _ ih =>
      obtain ⟨hs, hcount⟩ := ih
      refine ⟨?_, hcount⟩
      cases hs with
      | along runs few ended => exact .along runs few ended
      | limited runs phase status most => exact .limited runs phase status most
      | stopped runs phase status few => exact .stopped runs phase status few
  | summarized _ hsummary ih => exact ih.1.summarize ih.2 hsummary

end Search

end ConstraintSolver
