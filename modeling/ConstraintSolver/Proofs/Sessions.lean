import ConstraintSolver.Proofs.Alike
import ConstraintSolver.Proofs.Exploration
import ConstraintSolver.Proofs.Returning

/-! # Sessions — how a search is used, and what it has told so far

    A search is begun in a store, asked for solutions as often as one likes,
    perhaps cancelled in between, and ended at some point (`Session`).  The
    first thing it does is to propagate.  A constraint that does not wait may
    be violated, and then propagation may miss it (`Overlooks`).  If nothing
    is missed, the session tells every solution of the scope once, no matter
    how it is used (`Session.exploring`).  In any case the store is as it was
    before when the search is left (`Session.release`). -/

namespace ConstraintSolver

open Constraint Store

/-- Propagation would succeed, but leave a constraint violated. -/
def Store.Overlooks (s : Store) : Prop :=
  ∃ t, s.propagate = (.ok (), t) ∧
    ∃ c ∈ t.constraints.toList, entailment t.domains.get c = .violated

namespace Search

variable {ρ τ : Type} {policy : Policy ρ} {rule : TerminationRule τ}

/-- A search that was begun and has been used, with the solutions it has reported,
    the latest last. -/
inductive Session (policy : Policy ρ) (rule : TerminationRule τ) (begun : Search ρ τ) :
    List Solution → Search ρ τ → Prop
  | begun : Session policy rule begun [] begun
  /-- The next solution is asked for. -/
  | next {reported : List Solution} {s t : Search ρ τ} {answer : Answer} :
      Session policy rule begun reported s → s.next policy rule = (.ok answer, t) →
        Session policy rule begun (reported ++ answer.solutions) t
  /-- The termination condition changes from outside, because the search is
      cancelled for example. -/
  | changed {reported : List Solution} {s : Search ρ τ} (termination : τ) :
      Session policy rule begun reported s →
        Session policy rule begun reported
          ⟨{ s.control with termination := termination }, s.store⟩
  /-- The search is ended. -/
  | summarized {reported : List Solution} {s t : Search ρ τ} {summary : SearchSummary} :
      Session policy rule begun reported s → s.summarize = (.ok summary, t) →
        Session policy rule begun reported t

/-! ## The beginning -/

/-- The store is as it was, with the present state remembered. -/
structure Remembers (base t : Store) : Prop where
  model : SameModel base t
  domains : t.domains = base.domains.checkpoint
  failure : t.failure = base.failure
  agenda : t.agenda = base.agenda

variable {base : Store} {goal : SearchGoal} {begun : Search ρ τ}

/-- The search has been begun in the store, or is over already because no solution
    is asked for. -/
inductive Begun (base : Store) (goal : SearchGoal) (s : Search ρ τ) : Prop
  | underway (phase : s.control.phase = .propagating) (amid : Amid base s)
      (same : s.control.goal = goal) (stack : s.control.stack = [])
      (remembers : Remembers base s.store)
  | ended (phase : s.control.phase = .exhausted) (root : s.control.root = none)
      (status : s.control.status = some .solutionLimitReached)
      (returned : Returned base s.store)

/-- The control of a search that has not looked at the store yet. -/
def opening (goal : SearchGoal) (random : ρ) (termination : τ) (saved : Snapshot) (t : Store) :
    SearchControl ρ τ where
  goal := goal
  random := random
  termination := termination
  stack := []
  phase := .propagating
  root := some saved
  statistics := ⟨0, 0, 0, 0, 0⟩
  status := none
  initialPropagations := t.propagations
  patience := stepBound t.variableCount (largestSize t)

/-- A search begins with a snapshot, and ends at once if no solution is asked for. -/
theorem begin_eq (goal : SearchGoal) (random : ρ) (termination : τ) (s : Store) {t : Store}
    (ht : t = (s.note (.searchStarted goal.scope.length goal.allSolutions goal.limit)).snapshot.2) :
    begin goal random termination s =
      if (opening goal random termination s.snapshot.1 t).limitReached then
        finish ⟨opening goal random termination s.snapshot.1 t, t⟩ .solutionLimitReached
      else (.ok (), ⟨opening goal random termination s.snapshot.1 t, t⟩) := by
  subst ht
  rfl

/-- What is written in the journal before the state is remembered does not
    matter. -/
theorem begin_begun (hst : base.domains.Stamped) (goal : SearchGoal) (random : ρ)
    (termination : τ) {s : Store} (hmodel : SameModel base s) (hdomains : s.domains = base.domains)
    (hfailure : s.failure = base.failure) (hagenda : s.agenda = base.agenda) :
    ∃ begun : Search ρ τ, begin goal random termination s = (.ok (), begun) ∧
      Begun base goal begun := by
  let t := (s.note (.searchStarted goal.scope.length goal.allSolutions goal.limit)).snapshot.2
  -- what is noted in the journal is not part of a snapshot
  have hsaved : s.snapshot.1 = base.snapshot.1 := by
    rw [snapshot_eq, snapshot_eq, hfailure, Store.number, Store.number, Store.depth, Store.depth,
      hdomains]
  have hdomains' : t.domains = base.domains.checkpoint := congrArg Domains.checkpoint hdomains
  have hremembers : Remembers base t :=
    ⟨⟨hmodel.names, hmodel.constraints, hmodel.watchers, hmodel.shape⟩, hdomains', hfailure,
      hagenda⟩
  have hst' : t.domains.Stamped := hdomains' ▸ hst.checkpoint
  have hamid : Amid base ⟨opening goal random termination s.snapshot.1 t, t⟩ :=
    ⟨congrArg some hsaved, rfl, hremembers.model, hst'⟩
  rw [begin_eq goal random termination s (t := t) rfl]
  split
  · have hladder : Climbs base t.domains [] := by
      rw [hdomains']
      exact .ground (Domains.depth_checkpoint _) (Domains.restore_checkpoint _)
    obtain ⟨b, hb, hphase, hroot, hstatus, _, hreturned⟩ :=
      finish_returns hamid hladder .solutionLimitReached
    exact ⟨b, hb, .ended hphase hroot hstatus hreturned⟩
  · exact ⟨_, rfl, .underway rfl hamid rfl rfl hremembers⟩

/-- **BEGINNING A SEARCH** succeeds if its scope belongs to the store. -/
theorem start_begun (hst : base.domains.Stamped) (hscope : ∀ v ∈ goal.scope, base.owns v = true)
    (random : ρ) (termination : τ) :
    ∃ begun : Search ρ τ, start goal random termination base = .ok begun ∧
      Begun base goal begun := by
  have hall : goal.scope.all base.owns = true := List.all_eq_true.mpr hscope
  obtain ⟨b, hb, hbegun⟩ : ∃ begun : Search ρ τ, begin goal random termination
      (if goal.scope.isEmpty then base.note .emptyScope else base) = (.ok (), begun) ∧
        Begun base goal begun := by
    split
    · exact begin_begun hst goal random termination (evolves_note base .emptyScope).toSameModel rfl
        rfl rfl
    · exact begin_begun hst goal random termination (.refl base) rfl rfl rfl
  rw [start]
  simp only [hall, Bool.not_true, Bool.false_eq_true, if_false, hb]
  exact ⟨b, rfl, hbegun⟩

/-! ## Any session returns -/

/-- The store of a search that has been begun can be given back. -/
theorem Begun.standing (h : Begun base goal begun) : Standing base begun := by
  cases h with
  | underway phase amid same stack remembers =>
      refine .moving (.inl phase) amid ?_
      rw [stack, remembers.domains]
      exact .ground (Domains.depth_checkpoint _) (Domains.restore_checkpoint _)
  | ended phase root status returned => exact .exhausted phase root (by simp [status]) returned

/-- Changing the condition does not touch the store. -/
theorem Standing.changed {s : Search ρ τ} (h : Standing base s) (termination : τ) :
    Standing base ⟨{ s.control with termination := termination }, s.store⟩ := by
  cases h with
  | moving phase amid ladder =>
      exact .moving phase (amid.of_store amid.model amid.stamped rfl rfl) ladder
  | selecting phase amid ladder sane =>
      exact .selecting phase (amid.of_store amid.model amid.stamped rfl rfl) ladder sane
  | branching phase amid stack untried ladder sane =>
      exact .branching phase (amid.of_store amid.model amid.stamped rfl rfl) stack untried ladder
        sane
  | exhausted phase root ended returned => exact .exhausted phase root ended returned

/-- **WHATEVER IS ASKED** of a search, its store can be given back. -/
theorem Session.standing {reported : List Solution} {s : Search ρ τ}
    (h : Session policy rule begun reported s) (hbegun : Begun base goal begun) :
    Standing base s := by
  induction h with
  | begun => exact hbegun.standing
  | next _ hnext ih => exact ih.run _ hnext
  | changed termination _ ih => exact ih.changed termination
  | summarized _ hsummary ih => exact ih.summarize hsummary

/-- **EVERY SESSION RETURNS** to the state of the store from before. -/
theorem Session.release {reported : List Solution} {s : Search ρ τ}
    (h : Session policy rule begun reported s) (hbegun : Begun base goal begun) :
    ∃ u, s.release = (.ok (), u) ∧ Returned base u :=
  (h.standing hbegun).release

/-! ## Sessions which explore -/

/-- A store with a search to be begun in it. -/
structure Prepared (base : Store) (goal : SearchGoal) : Prop extends Ground base goal where
  stamped : base.domains.Stamped
  healthy : base.failure = none → Healthy .trivial base

/-- What remembers a healthy store is healthy. -/
theorem Remembers.healthy {Q : Criterion} {t : Store} (h : Remembers base t)
    (hbase : Healthy Q base) : Healthy Q t := by
  have hget : t.domains.get = base.domains.get := by
    rw [h.domains, Domains.get_checkpoint]
  refine ⟨h.failure.trans hbase.failure, ⟨?_, ?_, ?_, fun i c hc => ?_⟩,
    h.model.wired hbase.wired, h.model.numbered hbase.numbered, ?_, ?_⟩
  · rw [hget, h.model.allVariables]
    exact hbase.inhabited
  · rw [h.domains]
    exact hbase.coherent.quiet
  · rw [h.agenda]
    exact hbase.coherent.agenda
  · rw [h.model.constraints] at hc
    rw [h.agenda]
    refine (hbase.coherent.served i c hc).imp id (Or.imp id fun hmet => ?_)
    exact Q.congr c base.domains _ (fun v _ => (congrFun hget v).symm) hmet
  · intro c hc
    rw [h.model.constraints] at hc
    rw [hget]
    exact hbase.propagable c hc
  · rw [h.domains]
    exact hbase.stamped.checkpoint

theorem Remembers.alike {t : Store} (h : Remembers base t) : Alike base t := by
  refine ⟨h.model, ?_, h.agenda ▸ .refl base.agenda, h.failure⟩
  rw [h.domains]
  exact ⟨.refl base.domains, rfl, rfl⟩

/-- The first propagation settles the store, unless the store overlooks something. -/
theorem settles_of_not_overlooks {t : Store} (h : Remembers base t)
    (hbase : base.failure = none → Healthy .trivial base) (hno : ¬ base.Overlooks) :
    Settles base t := by
  cases hprop : base.propagate with
  | mk result s =>
      -- the search propagates a store that is alike, and so to the same domains
      obtain ⟨u, hprop', halike⟩ := h.alike.propagate hprop
      rw [Settles]
      rw [hprop']
      cases result with
      | ok _ =>
          have hf := (propagate_ok hprop).1
          obtain ⟨hfix, _, hkept⟩ := (h.healthy (hbase hf)).propagate_ok hprop'
          refine ⟨hfix.upgrade fun c hc hvio => hno ⟨s, hprop, c, ?_⟩, hkept⟩
          rw [← (halike rfl).constraints, ← (halike rfl).domains.get]
          exact ⟨hc, hvio⟩
      | error why => exact fun hf => (h.healthy (hbase hf)).propagate_error hprop'

/-- A search that has been begun has everything left to explore. -/
theorem Begun.exploring (h : Begun base goal begun) (hprepared : Prepared base goal)
    (hno : ¬ base.Overlooks) : Exploring base goal [] begun := by
  cases h with
  | underway phase amid same stack remembers =>
      have hget : begun.store.domains.get = base.domains.get := by
        rw [remembers.domains, Domains.get_checkpoint]
      refine .propagating phase amid same ?_ ?_
        (settles_of_not_overlooks remembers hprepared.healthy hno)
      · rw [stack, remembers.domains]
        exact .ground (Domains.depth_checkpoint _) (Domains.restore_checkpoint _)
      · rw [stack, hget]
        exact .start base goal.scope
  | ended phase root status returned =>
      exact .exhausted phase status (fun h => nomatch h) (.start base goal.scope)

/-- Changing the condition does not touch what is left to explore. -/
theorem Exploring.changed {reported : List Solution} {s : Search ρ τ}
    (h : Exploring base goal reported s) (termination : τ) :
    Exploring base goal reported ⟨{ s.control with termination := termination }, s.store⟩ := by
  cases h with
  | propagating phase amid same ladder explores settles =>
      exact .propagating phase (amid.changed termination) same ladder explores settles
  | selecting phase amid same ladder explores fixpoint =>
      exact .selecting phase (amid.changed termination) same ladder explores fixpoint
  | branching phase amid same stack ladder explores opened =>
      exact .branching phase (amid.changed termination) same stack ladder explores opened
  | backtracking phase amid same ladder explores =>
      exact .backtracking phase (amid.changed termination) same ladder explores
  | exhausted phase ended complete explores => exact .exhausted phase ended complete explores

/-- Summing up leaves what has been explored. -/
theorem Exploring.summarize {reported : List Solution} {s t : Search ρ τ}
    (h : Exploring base goal reported s) {summary : SearchSummary}
    (hok : s.summarize = (.ok summary, t)) : Exploring base goal reported t := by
  obtain ⟨c, store⟩ := s
  -- a search that has not ended is ended here, from whichever phase it is in
  have hend : ∀ {stack regions}, Amid base ⟨c, store⟩ →
      Ladder base (Chosen base goal.scope) store.domains stack →
      Explores base goal.scope reported regions → Exploring base goal reported t := by
    intro stack regions amid hladder hex
    obtain ⟨s, hs, hexploring⟩ :=
      finish_exploring amid hladder hex .terminated fun h => nomatch h
    have hstatus : c.status = none := amid.status
    rw [Search.summarize] at hok
    simp only [hstatus, hs] at hok
    cases hok
    exact hexploring
  cases h with
  | propagating phase amid same ladder explores settles => exact hend amid ladder explores
  | selecting phase amid same ladder explores fixpoint => exact hend amid ladder explores
  | branching phase amid same stack ladder explores opened => exact hend amid ladder explores
  | backtracking phase amid same ladder explores => exact hend amid ladder explores
  | exhausted phase ended complete explores =>
      have hstatus : c.status = some _ := ended
      rw [Search.summarize] at hok
      simp only [hstatus] at hok
      cases hok
      exact .exhausted phase ended complete explores

section Policies

variable {choice : VariableChoice} (hvariable : policy.chooseVariable = choice.choose)
  (hvalue : policy.ChoosesCandidates)
  (hprepared : Prepared base goal) (hbegun : Begun base goal begun)
  (hno : ¬ base.Overlooks)

include hvariable hvalue hprepared hbegun hno

/-- **EVERY SESSION EXPLORES** if the store overlooks nothing. -/
theorem Session.exploring {reported : List Solution} {s : Search ρ τ}
    (h : Session policy rule begun reported s) : Exploring base goal reported s := by
  induction h with
  | begun => exact hbegun.exploring hprepared hno
  | @next reported s t answer _ hnext ih =>
      obtain ⟨answer', t', hrun, ht⟩ :=
        ih.run hvariable hvalue hprepared.toGround rule s.control.patience
      rw [Search.next, hrun] at hnext
      cases hnext
      exact ht
  | changed termination _ ih => exact ih.changed termination
  | summarized _ hsummary ih => exact ih.summarize hsummary

end Policies

end Search

end ConstraintSolver
