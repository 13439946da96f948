import ConstraintSolver.Proofs.Restoring

/-! # Leaving — a search leaves the store as it found it

    A search works below a snapshot of its own and restores it when it stops,
    for whatever reason, or when it is given up before.  Whatever was known of
    the store is true again afterwards: its domains and its failure, the
    snapshots that are open, and all that the search never touches
    (`Returned.sameState`).  Only nothing waits any longer. -/

namespace ConstraintSolver

open Constraint Store

namespace Search

variable {ρ τ : Type} {policy : Policy ρ} {rule : TerminationRule τ} {base t : Store}
  {goal : SearchGoal} {s : Search ρ τ}

/-- The state is the same, and nothing waits to be propagated. -/
structure Left (base t : Store) : Prop extends SameState base t where
  idle : t.agenda = .empty

/-- A store that a search has returned is as it was before the search. -/
theorem Returned.left (h : Returned base t) : Left base t := by
  refine ⟨⟨fun v => ?_, h.failure, h.model.names, h.model.constraints, h.model.watchers, ?_⟩,
    h.agenda⟩
  · rw [domain, h.domains]
    rfl
  · rw [depth, h.domains]
    rfl

/-- A search with a status is over, and has returned. -/
theorem Standing.returned (h : Standing base s) (hstatus : s.control.status ≠ none) :
    Returned base s.store := by
  cases h with
  | moving phase amid ladder => exact absurd amid.status hstatus
  | selecting phase amid ladder sane => exact absurd amid.status hstatus
  | branching phase amid stack untried ladder sane => exact absurd amid.status hstatus
  | exhausted phase root ended returned => exact returned

/-- Asking for the summary ends the search, if it is not over. -/
theorem Standing.summarizes (h : Standing base s) :
    ∃ summary t, s.summarize = (.ok summary, t) ∧ t.control.status = some summary.status ∧
      Returned base t.store := by
  obtain ⟨c, store⟩ := s
  -- from any phase but the last, asking for the summary ends the search
  have hend : ∀ {stack}, Amid base ⟨c, store⟩ → Climbs base store.domains stack →
      ∃ summary t, Search.summarize ⟨c, store⟩ = (.ok summary, t) ∧
        t.control.status = some summary.status ∧ Returned base t.store := by
    intro stack amid hladder
    obtain ⟨t, ht, _, _, hstatus, _, hreturned⟩ := finish_returns amid hladder .terminated
    have hnone : c.status = none := amid.status
    rw [Search.summarize]
    simp only [hnone, ht]
    exact ⟨_, t, rfl, hstatus, hreturned⟩
  cases h with
  | moving phase amid ladder => exact hend amid ladder
  | selecting phase amid ladder sane => exact hend amid ladder
  | branching phase amid stack untried ladder sane => exact hend amid ladder
  | exhausted phase root ended returned =>
      obtain ⟨status, hstatus⟩ := Option.ne_none_iff_exists'.mp ended
      have hstatus' : c.status = some status := hstatus
      rw [Search.summarize]
      simp only [hstatus']
      exact ⟨_, _, rfl, hstatus', returned⟩

/-- **A SEARCH LEAVES THE STORE AS IT FOUND IT.** In every history of a store, a search over
    variables of the store can be begun, and may be used in any way. When it has
    stopped, for whatever reason, the store is in the state from before, and nothing
    waits. The same is true when the search is given up after any number of steps, and
    when it is asked for its summary. -/
theorem search_leaves_store {retries : Prop} {live discarded : List Snapshot}
    (hhistory : History retries base live discarded)
    (hscope : ∀ v ∈ goal.scope, base.owns v = true) (policy : Policy ρ)
    (rule : TerminationRule τ) (random : ρ) (termination : τ) :
    ∃ begun, start goal random termination base = .ok begun ∧
      ∀ reported s, Session policy rule begun reported s →
        (s.control.status ≠ none → Left base s.store) ∧
        (∃ u, s.release = (.ok (), u) ∧ Left base u) ∧
        ∃ summary t, s.summarize = (.ok summary, t) ∧
          t.control.status = some summary.status ∧ Left base t.store := by
  obtain ⟨begun, hstart, hbegun⟩ :=
    start_begun hhistory.ordered.stamped hscope random termination
  refine ⟨begun, hstart, fun reported s hsession => ?_⟩
  have hstanding := hsession.standing hbegun
  obtain ⟨u, hu, hreturned⟩ := hstanding.release
  obtain ⟨summary, t, ht, hstatus, hsummarized⟩ := hstanding.summarizes
  exact ⟨fun hstatus => (hstanding.returned hstatus).left, ⟨u, hu, hreturned.left⟩,
    summary, t, ht, hstatus, hsummarized.left⟩

/-- Two snapshots deep in a store with a constraint that waits. -/
def nestedSuccessors : Store :=
  (narrowedSuccessors.snapshot.2.setUpperBound ⟨0, 1⟩ 6).2

/-- A search with a budget, two snapshots deep and with a constraint that waits, leaves the store
    as it was. -/
theorem search_leaves_nestedSuccessors :
    ¬ nestedSuccessors.agenda.isEmpty ∧ nestedSuccessors.depth = 2 ∧
      ∃ begun : Search Generator Watch,
        start ⟨[⟨0, 0⟩], true, some 2⟩ (.ofSeed 7) (.new (.budget 3 0)) nestedSuccessors =
            .ok begun ∧
          ∀ reported s,
            Session (.of .smallestDomain .inDomainRandom) Watch.rule begun reported s →
              (s.control.status ≠ none → Left nestedSuccessors s.store) ∧
              (∃ u, s.release = (.ok (), u) ∧ Left nestedSuccessors u) ∧
              ∃ summary t, s.summarize = (.ok summary, t) ∧
                t.control.status = some summary.status ∧ Left nestedSuccessors t.store := by
  have hhistory : History False nestedSuccessors _ [] :=
    ((((history_successors False).snapshot).operated (.setLowerBound _ ⟨0, 0⟩ 3)).operated
      (.propagate _)).snapshot.operated (.setUpperBound _ ⟨0, 1⟩ 6)
  exact ⟨by decide +kernel, by decide +kernel,
    search_leaves_store hhistory (by decide +kernel) _ _ _ _⟩

end Search

end ConstraintSolver
