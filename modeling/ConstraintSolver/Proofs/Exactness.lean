import ConstraintSolver.Proofs.Choices
import ConstraintSolver.Proofs.Reachable

/-! # Exactness — what a search tells, and what there is

    A search in a reachable store is exact if the store overlooks nothing:
    every solution it reports can be completed to a solution of the store,
    none is reported twice, and none is missing once it is complete
    (`Exact`).

    Nothing is overlooked if snapshots were only taken when no constraint was
    waiting, because constraints which do not wait are stable then
    (`sessions_are_exact`).  Otherwise a violated constraint may have been
    forgotten.  The store has no solution in that case, and whatever is
    reported is wrong (`reported_solves_iff`). -/

namespace ConstraintSolver

open Constraint

namespace Store

/-- In all constraints of the store, flags are 0 or 1 at present and offsets can be
    negated. -/
structure Regular (s : Store) : Prop where
  boolean : ∀ c ∈ s.constraints.toList, ∀ b ∈ c.flags, ∀ x ∈ s.domain b, x = 0 ∨ x = 1
  negatable : ∀ c ∈ s.constraints.toList, ∀ k ∈ c.offsets, InRange (-k)

instance (s : Store) : Decidable s.Regular :=
  decidable_of_iff
    ((∀ c ∈ s.constraints.toList, ∀ b ∈ c.flags, ∀ x ∈ (s.domain b).values, x = 0 ∨ x = 1) ∧
      ∀ c ∈ s.constraints.toList, ∀ k ∈ c.offsets, InRange (-k))
    ⟨fun h => ⟨fun c hc b hb x hx => h.1 c hc b hb x (Domain.mem_values.mpr hx), h.2⟩,
      fun h => ⟨fun c hc b hb x hx => h.boolean c hc b hb x (Domain.mem_values.mp hx),
        h.negatable⟩⟩

variable {Q : Criterion} {s : Store} {live : List Snapshot}

/-- A sound store that has not failed and is regular is healthy. -/
theorem Sound.healthy (h : Sound Q s live) (hf : s.failure = none) (hregular : s.Regular) :
    Healthy Q s := by
  have hcoh := h.coherent hf
  refine ⟨hf, hcoh, h.wired, h.numbered, fun c hc => ?_, h.stamped⟩
  exact ⟨hcoh.inhabited.mono (h.wired.declared c hc), hregular.boolean c hc,
    hregular.negatable c hc⟩

/-- Every search can be begun in a reachable store. -/
theorem Reached.prepared {allowed : Store → Prop} (h : Reached allowed s live)
    (hregular : s.Regular) {goal : SearchGoal} (hscope : ∀ v ∈ goal.scope, v ∈ s.allVariables) :
    Search.Prepared s goal := by
  have hsound := h.sound (keeps_trivial allowed)
  exact ⟨⟨hsound.wired, hsound.numbered, hscope⟩, hsound.stamped,
    fun hf => hsound.healthy hf hregular⟩

/-! ## What is overlooked -/

/-- Where constraints that do not wait are stable, nothing is overlooked. -/
theorem Healthy.not_overlooks (h : Healthy .stable s) : ¬ s.Overlooks := by
  rintro ⟨t, hprop, c, hc, hvio⟩
  obtain ⟨hfix, _, _⟩ := h.propagate_ok hprop
  have hstable : Stable c t.domains := (hfix.coherent.resting hfix.idle).met c hc
  exact not_stable_of_violated c (hfix.propagable c hc) hvio hstable

/-- Where something is overlooked there is no solution. -/
theorem Overlooks.unsolved (hover : s.Overlooks) (h : Healthy .trivial s) (σ : Assignment) :
    ¬ s.SolvedBy σ := by
  obtain ⟨t, hprop, c, hc, hvio⟩ := hover
  obtain ⟨hfix, _, hkept⟩ := h.propagate_ok hprop
  intro hσ
  -- a solution would be left after propagation, but not satisfy the violated constraint
  obtain ⟨hdraw, hsat⟩ := (hkept σ).mpr hσ
  have hdrawn : Family.Draws t.domains.get c.occurrences σ :=
    fun v hv => hdraw v (hfix.wired.declared c hc v hv)
  have hflags : ∀ b ∈ c.flags, σ b = 0 ∨ σ b = 1 := fun b hb =>
    (hfix.propagable c hc).boolean b hb _ (hdrawn b (flags_subset_occurrences c b hb))
  have hfalse := not_holds_of_violated hdrawn hflags hvio
  rw [hsat c hc] at hfalse
  cases hfalse

end Store

open Store

namespace Search

variable {ρ τ : Type}

/-! ## Exact searches -/

/-- **WHAT A SEARCH TELLS** about the solutions of the store, given what it has
    reported so far and how it has ended, if it has. -/
structure Exact (base : Store) (scope : List Variable) (reported : List Solution)
    (status : Option SearchStatus) : Prop where
  /-- No assignment of the scope is reported twice. -/
  once : (reported.map Solution.values).Nodup
  /-- What is reported is the part of a solution that is about the scope. -/
  sound : ∀ x ∈ reported, ∃ σ, base.SolvedBy σ ∧ x = base.restriction scope σ
  /-- If the search is complete, it has reported this part of every solution. -/
  complete : status = some .complete → ∀ σ, base.SolvedBy σ →
    base.restriction scope σ ∈ reported

variable {base : Store} {goal : SearchGoal} {reported : List Solution} {s : Search ρ τ}

/-- What a search knows in any phase; nothing is left once it is complete. -/
theorem Exploring.explores (h : Exploring base goal reported s) :
    ∃ regions, Explores base goal.scope reported regions ∧
      (s.control.status = some .complete → regions = []) := by
  have hunderway : ∀ {regions}, Amid base s → s.control.status = some .complete →
      regions = ([] : List Family) := by
    intro regions amid hstatus
    rw [amid.status] at hstatus
    cases hstatus
  cases h with
  | propagating phase amid same ladder explores settles => exact ⟨_, explores, hunderway amid⟩
  | selecting phase amid same ladder explores fixpoint => exact ⟨_, explores, hunderway amid⟩
  | branching phase amid same stack ladder explores opened =>
      exact ⟨_, explores, hunderway amid⟩
  | backtracking phase amid same ladder explores => exact ⟨_, explores, hunderway amid⟩
  | exhausted phase ended complete explores =>
      refine ⟨_, explores, fun hstatus => complete ?_⟩
      rw [ended] at hstatus
      exact Option.some.inj hstatus

/-- **EXACT AT EVERY MOMENT**: a search that is exploring has reported solutions only, no two of
    them alike, and all of them once it is complete. -/
theorem Exploring.exact (h : Exploring base goal reported s) (hf : base.failure = none) :
    Exact base goal.scope reported s.control.status := by
  obtain ⟨regions, hex, hcomplete⟩ := h.explores
  refine ⟨hex.values_nodup, hex.sound, fun hstatus σ hσ => ?_⟩
  obtain rfl := hcomplete hstatus
  exact hex.complete hf hσ

section Reachable

variable {live : List Snapshot} {choice : VariableChoice} {policy : Policy ρ}

/-- **SESSIONS ARE EXACT.**  In a store where no constraint waits, and no constraint
    was waiting whenever a snapshot was taken, a search over variables of the
    store can be begun, and however it is used, it is exact and can be asked
    for more. -/
theorem sessions_are_exact (hreached : Reached (fun s => s.agenda.isEmpty = true) base live)
    (hf : base.failure = none) (hregular : base.Regular)
    (hscope : ∀ v ∈ goal.scope, v ∈ base.allVariables)
    (hvariable : policy.chooseVariable = choice.choose) (hvalue : policy.ChoosesCandidates)
    (rule : TerminationRule τ) (random : ρ) (termination : τ) :
    ∃ begun, start goal random termination base = .ok begun ∧
      ∀ reported s, Session policy rule begun reported s →
        Exact base goal.scope reported s.control.status ∧
          ∃ answer t, s.next policy rule = (.ok answer, t) := by
  have hprepared := hreached.prepared hregular hscope
  have hsound := hreached.sound (keeps_of_idle .stable)
  have hno := (hsound.healthy hf hregular).not_overlooks
  have howns : ∀ v ∈ goal.scope, base.owns v = true := fun v hv =>
    decide_eq_true (mem_allVariables.mp (hscope v hv)).1
  obtain ⟨begun, hstart, hbegun⟩ := start_begun hprepared.stamped howns random termination
  refine ⟨begun, hstart, fun reported s hsession => ?_⟩
  have hexploring := hsession.exploring hvariable hvalue hprepared hbegun hno
  obtain ⟨answer, t, hnext, _⟩ :=
    hexploring.run hvariable hvalue hprepared.toGround rule s.control.patience
  exact ⟨hexploring.exact hf, answer, t, hnext⟩

end Reachable

/-- The flag tells whether two variables are different. -/
def flaggedDifference : Constraint :=
  .reified (.equality ⟨0, 0⟩ .notEqual (.variable ⟨0, 1⟩)) ⟨0, 2⟩

/-- Two variables with two values each, and a flag which tells whether they are
    different. -/
def flaggedPair : Store :=
  (((((Store.empty 0 none).newInteger 0 1 none).2.newInteger 0 1 none).2.newBoolean none).2.impose
    flaggedDifference).2

/-- The pair comes about with whatever is allowed at a snapshot, since none is taken. -/
theorem reached_flaggedPair (allowed : Store → Prop) : Reached allowed flaggedPair [] :=
  .impose (by decide +kernel) (by decide +kernel)
    (.newBoolean none (.newInteger 0 1 none (.newInteger 0 1 none (.empty 0 none))))

/-- Every search for all values of the flag and one variable is exact, and its next call is
    answered. -/
theorem sessions_with_flaggedPair_are_exact :
    ∃ begun : Search Generator Watch,
      start ⟨[⟨0, 2⟩, ⟨0, 0⟩], true, none⟩ (.ofSeed 7) (.new .indefinite) flaggedPair =
          .ok begun ∧
        ∀ reported s,
          Session (.of .smallestDomain .inDomainRandom) Watch.rule begun reported s →
            Exact flaggedPair [⟨0, 2⟩, ⟨0, 0⟩] reported s.control.status ∧
              ∃ answer t, s.next (.of .smallestDomain .inDomainRandom) Watch.rule =
                (.ok answer, t) :=
  sessions_are_exact (reached_flaggedPair _) (by decide +kernel) (by decide +kernel)
    (by decide +kernel) (rfl : _ = VariableChoice.choose .smallestDomain)
    (Policy.choosesCandidates_of Generator.drawsBelow _ _) _ _ _

section Reachable

variable {live : List Snapshot} {choice : VariableChoice} {policy : Policy ρ}

/-- **REPORTED SOLUTIONS ARE SOLUTIONS** exactly if the store in which the search
    is begun overlooks nothing, whenever its snapshots were taken and whatever
    is waiting. -/
theorem reported_solves_iff (hreached : Reached (fun _ => True) base live)
    (hregular : base.Regular) (hscope : ∀ v ∈ goal.scope, base.Issued v)
    (hvariable : policy.chooseVariable = choice.choose)
    (hvalue : policy.ChoosesCandidates) {rule : TerminationRule τ} {random : ρ} {termination : τ}
    {begun : Search ρ τ} (hstart : start goal random termination base = .ok begun)
    (hsession : Session policy rule begun reported s) :
    ∀ x ∈ reported,
      (∃ σ, base.SolvedBy σ ∧ x = base.restriction goal.scope σ) ↔ ¬ base.Overlooks := by
  have howns := owns_of_start hstart
  have hprepared := hreached.prepared hregular fun v hv => hscope v hv (howns v hv)
  intro x hx
  constructor
  · rintro ⟨σ, hσ, _⟩ hover
    have ⟨_, hprop, _⟩ := hover
    exact hover.unsolved (hprepared.healthy (propagate_ok hprop).1) σ hσ
  · intro hno
    obtain ⟨begun', hstart', hbegun⟩ := start_begun hprepared.stamped howns random termination
    rw [hstart] at hstart'
    cases hstart'
    have hexploring := hsession.exploring hvariable hvalue hprepared hbegun hno
    obtain ⟨regions, hex, _⟩ := hexploring.explores
    exact hex.sound x hx

end Reachable

/-- The pair with equal values and a flag that denies it, none of which has been
    propagated. -/
def updatedPair : Store :=
  (((flaggedPair.assign ⟨0, 0⟩ 0).2.assign ⟨0, 1⟩ 0).2.assign ⟨0, 2⟩ 1).2

/-- This pair after a snapshot was taken and restored: the constraint does not wait
    any longer. -/
def forgetfulPair : Store := (updatedPair.snapshot.2.restore updatedPair.snapshot.1).2

/-- The pair that forgets what waits comes about when a snapshot may be taken at any time. -/
theorem reached_forgetfulPair : Reached (fun _ => True) forgetfulPair [] := by
  have hupdated : Reached (fun _ => True) updatedPair [] :=
    .assign _ _ (.assign _ _ (.assign _ _ (reached_flaggedPair _)))
  have hsaved : Reached (fun _ => True) updatedPair.snapshot.2
      ([] ++ updatedPair.snapshot.1 :: []) := .snapshot trivial hupdated
  exact hsaved.restore

/-- It overlooks a violation: the flag denies equal values, and the constraint does not wait. -/
theorem overlooks_forgetfulPair : forgetfulPair.Overlooks :=
  ⟨forgetfulPair.propagate.2, by decide +kernel, flaggedDifference, by decide +kernel,
    by decide +kernel⟩

/-- Where a violation is forgotten, a search reports what is not a solution. -/
theorem forgotten_violation_is_reported :
    ∃ (begun s : Search Generator Watch) (x : Solution),
      start ⟨[⟨0, 0⟩, ⟨0, 1⟩], true, none⟩ (.ofSeed 7) (.new .indefinite) forgetfulPair =
          .ok begun ∧
        Session (.of .inputOrder .inDomainMin) Watch.rule begun [x] s ∧
          ¬ ∃ σ, forgetfulPair.SolvedBy σ ∧
            x = forgetfulPair.restriction [⟨0, 0⟩, ⟨0, 1⟩] σ := by
  -- the first solution, as the search computes it
  have hrun : (start ⟨[⟨0, 0⟩, ⟨0, 1⟩], true, none⟩ (Generator.ofSeed 7) (Watch.new .indefinite)
      forgetfulPair).map (fun begun =>
        (begun.next (.of .inputOrder .inDomainMin) Watch.rule).1) =
      .ok (.ok (.solution (forgetfulPair.restriction [⟨0, 0⟩, ⟨0, 1⟩] fun _ => 0))) := by
    decide +kernel
  cases hstart : start ⟨[⟨0, 0⟩, ⟨0, 1⟩], true, none⟩ (Generator.ofSeed 7)
      (Watch.new .indefinite) forgetfulPair with
  | error e =>
      rw [hstart] at hrun
      cases hrun
  | ok begun =>
      rw [hstart] at hrun
      have hnext := Except.ok.inj hrun
      have hsession : Session (.of .inputOrder .inDomainMin) Watch.rule begun _ _ :=
        .next .begun (Prod.ext_iff.mpr ⟨hnext, rfl⟩)
      refine ⟨begun, _, _, rfl, hsession, fun hsolved => ?_⟩
      have hiff := reported_solves_iff reached_forgetfulPair (by decide +kernel)
        (by decide +kernel) (rfl : _ = VariableChoice.choose .inputOrder)
        (Policy.choosesCandidates_of Generator.drawsBelow _ _) hstart hsession
      exact (hiff _ (List.mem_singleton_self _)).mp hsolved overlooks_forgetfulPair

end Search

end ConstraintSolver
