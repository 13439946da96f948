import ConstraintSolver.Proofs.Operations

/-! # Trying a value — assign, propagate, and undo

    The search and the completion check both work by trials: remember the
    state, assign a value to a variable, propagate, look at what is left, and
    go back.  A trial starts at a fixpoint (`AtFixpoint`) and, if propagation
    finds no inconsistency, arrives at one.  On the way the solutions of the
    store are cut down to those with the value that is tried, and nothing
    else happens to them (`Evolves.solvedBy_assigned`,
    `Healthy.propagate_ok`, `Healthy.propagate_error`).  Going back gives the
    domains and the failure as they were (`restore_of_evolves`). -/

namespace ConstraintSolver

open Constraint

namespace Store

variable {s t u : Store} {Q : Criterion}

/-! ## Fixpoints -/

/-- A store that has not failed, in which every constraint that does not wait meets
    the criterion. -/
structure Healthy (Q : Criterion) (s : Store) : Prop where
  failure : s.failure = none
  coherent : Coherent Q none s
  wired : s.Wired
  numbered : s.Numbered
  propagable : s.Propagable
  stamped : s.domains.Stamped

/-- No constraint waits either. -/
structure AtFixpoint (Q : Criterion) (s : Store) : Prop extends Healthy Q s where
  idle : s.agenda.toList = []

theorem Healthy.inhabited (h : Healthy Q s) : Family.Inhabited s.domains.get s.allVariables :=
  h.coherent.inhabited

/-- What has evolved from a healthy store is healthy if it is coherent and has not
    failed. -/
theorem Healthy.evolves (h : Healthy Q s) (hev : Evolves s t) (hf : t.failure = none)
    (hcoh : Coherent Q none t) : Healthy Q t := by
  have hin : Family.Inhabited t.domains.get s.allVariables := by
    rw [← hev.allVariables]
    exact hcoh.inhabited
  exact ⟨hf, hcoh, hev.wired h.wired, hev.numbered h.numbered,
    h.propagable.evolves hev hin h.wired, hev.retraces.stamped h.stamped⟩

theorem Healthy.note (h : Healthy Q s) (e : Event) : Healthy Q (s.note e) :=
  h.evolves (evolves_note s e) h.failure
    ⟨h.coherent.inhabited, h.coherent.quiet, h.coherent.agenda, h.coherent.served⟩

/-- At a fixpoint, constraints are known to hold or undecided. -/
theorem AtFixpoint.not_violated (h : AtFixpoint .unviolated s) {c : Constraint}
    (hc : c ∈ s.constraints.toList) : entailment s.domains.get c ≠ .violated :=
  (h.coherent.resting h.idle).met c hc (h.propagable c hc)

/-- A fixpoint at which no constraint is violated. -/
theorem AtFixpoint.upgrade (h : AtFixpoint .trivial s)
    (hno : ∀ c ∈ s.constraints.toList, entailment s.domains.get c ≠ .violated) :
    AtFixpoint .unviolated s := by
  refine ⟨⟨h.failure, ⟨h.inhabited, h.coherent.quiet, h.coherent.agenda, fun i c hc => ?_⟩,
    h.wired, h.numbered, h.propagable, h.stamped⟩, h.idle⟩
  exact Or.inr (Or.inr fun _ => hno c (mem_constraints hc))

/-! ## Propagation -/

/-- Solutions of a store that has evolved are solutions of what it was. -/
theorem Evolves.solvedBy (h : Evolves s t) {σ : Assignment} (hσ : t.SolvedBy σ) :
    s.SolvedBy σ := by
  obtain ⟨hdraw, hsat⟩ := hσ
  rw [h.allVariables] at hdraw
  rw [h.constraints] at hsat
  exact ⟨hdraw.mono h.shrinks, hsat⟩

/-- **PROPAGATION KEEPS THE SOLUTIONS**, and leaves the store at a fixpoint. -/
theorem Healthy.propagate_ok (h : Healthy Q s) (hok : s.propagate = (.ok (), t)) :
    AtFixpoint Q t ∧ Evolves s t ∧ ∀ σ, t.SolvedBy σ ↔ s.SolvedBy σ := by
  have hev := evolves_propagate s
  rw [hok] at hev
  obtain ⟨hcoh, hidle, hf⟩ := propagate_coherent h.coherent h.wired h.numbered hok
  refine ⟨⟨h.evolves hev hf hcoh, hidle⟩, hev, fun σ => ⟨hev.solvedBy, fun hσ => ?_⟩⟩
  obtain ⟨_, hdraw⟩ := propagate_keeps_solution h.failure h.propagable h.wired hσ.1 hσ.2
  rw [hok] at hdraw
  refine ⟨?_, ?_⟩
  · rw [hev.allVariables]
    exact hdraw
  · rw [hev.constraints]
    exact hσ.2

/-- A store whose propagation fails has no solution. -/
theorem Healthy.propagate_error (h : Healthy Q s) {why : Inconsistency}
    (herr : s.propagate = (.error why, t)) (σ : Assignment) : ¬ s.SolvedBy σ := by
  intro hσ
  obtain ⟨hok, _⟩ := propagate_keeps_solution h.failure h.propagable h.wired hσ.1 hσ.2
  rw [herr] at hok
  cases hok

/-! ## Assignment -/

/-- **ASSIGNING ONE OF ITS VALUES** to a variable succeeds, and changes this variable
    only. -/
theorem Healthy.assign (h : Healthy Q s) {v : Variable} (hv : v ∈ s.allVariables) {value : Int}
    (hmem : value ∈ s.domains.get v) :
    ∃ t, s.assign v value = (.ok (), t) ∧ Healthy Q t ∧ Evolves s t ∧
      t.domains.get = Family.narrowed s.domains.get v
        ((s.domains.get v).prune (.exactly value)) := by
  have howns : s.owns v = true := owns_of_mem hv
  have hok := assign_succeeds howns hmem h.failure
  have hpair : s.assign v value = (.ok (), (s.assign v value).2) := Prod.ext hok rfl
  obtain ⟨_, hprune⟩ := assign_ok hpair
  obtain ⟨_, hf, hev, hget, _, _⟩ := prune_ok hprune
  refine ⟨_, hpair, h.evolves hev hf ?_, hev, funext hget⟩
  exact prune_coherent h.coherent h.wired h.numbered hprune

/-- The solutions which are left are those with the value. -/
theorem Evolves.solvedBy_assigned (h : Evolves s t) {v : Variable} (hv : v ∈ s.allVariables)
    {value : Int} (hmem : value ∈ s.domains.get v)
    (hget : t.domains.get = Family.narrowed s.domains.get v
      ((s.domains.get v).prune (.exactly value)))
    (σ : Assignment) : t.SolvedBy σ ↔ s.SolvedBy σ ∧ σ v = value := by
  have hdraws := Family.draws_narrowed_iff (σ := σ)
    ((s.domains.get v).prune_le (.exactly value)) hv
  rw [mem_prune_exactly hmem] at hdraws
  rw [SolvedBy, SolvedBy, Solves, Solves, h.constraints, h.allVariables, hget, hdraws]
  exact and_right_comm

/-! ## Remembering and going back -/

theorem Healthy.snapshot (h : Healthy Q s) : Healthy Q s.snapshot.2 := by
  refine ⟨h.failure, ⟨h.inhabited, h.coherent.quiet, h.coherent.agenda, fun i c hc => ?_⟩,
    ⟨h.wired.declared, h.wired.watched, h.wired.watchers⟩, h.numbered, h.propagable,
    h.stamped.checkpoint⟩
  rcases h.coherent.served i c hc with hwait | hcur | hmet
  · exact Or.inl hwait
  · exact Or.inr (Or.inl hcur)
  · exact Or.inr (Or.inr (Q.congr c s.domains _ (fun _ _ => rfl) hmet))

/-- **GOING BACK**: whatever has happened since the snapshot is undone, apart from
    what waits and what is counted. -/
theorem restore_of_evolves (hst : s.domains.Stamped) (hev : Evolves s.snapshot.2 t) :
    t.restoreOwned s.snapshot.1 =
      (.ok (),
        { t with domains := s.domains.settled, agenda := .empty, failure := s.failure }) := by
  have hnumber : s.snapshot.1.store = t.number := hev.shape.1.symm
  have hdepth : t.depth = s.depth + 1 :=
    hev.retraces.depth.trans (Domains.depth_checkpoint s.domains)
  have hback : t.domains.restore s.depth = s.domains.settled := by
    have hlt : s.depth < s.domains.checkpoint.depth := by
      rw [Domains.depth_checkpoint]
      exact Nat.lt_succ_self _
    rw [hev.retraces.restore hst.checkpoint s.depth hlt]
    exact s.domains.restore_checkpoint
  rw [restoreOwned_eq hnumber (by rw [hdepth]; exact Nat.lt_succ_self _)]
  -- only the counters and the journal are those of the later store
  change (_, { t with domains := t.domains.restore s.depth, agenda := _, failure := _ }) = _
  rw [hback]
  rfl

/-- The second store differs from the first in counters and in the journal at
    most; what waited may be forgotten. -/
structure Unmoved (s t : Store) : Prop where
  domains : t.domains = s.domains
  names : t.names = s.names
  constraints : t.constraints = s.constraints
  watchers : t.watchers = s.watchers
  failure : t.failure = s.failure
  agenda : t.agenda = s.agenda ∨ t.agenda = .empty

namespace Unmoved

theorem refl (s : Store) : Unmoved s s := ⟨rfl, rfl, rfl, rfl, rfl, .inl rfl⟩

theorem trans (h : Unmoved s t) (h' : Unmoved t u) : Unmoved s u := by
  refine ⟨h'.domains.trans h.domains, h'.names.trans h.names,
    h'.constraints.trans h.constraints, h'.watchers.trans h.watchers,
    h'.failure.trans h.failure, ?_⟩
  rcases h'.agenda with heq | hempty
  · rw [heq]
    exact h.agenda
  · exact Or.inr hempty

theorem evolves (h : Unmoved s t) : Evolves s t := by
  refine ⟨⟨h.names, h.constraints, h.watchers, ?_⟩, ?_, ?_⟩
  · rw [h.domains]
    exact .refl _
  · rw [h.domains]
    exact .refl _
  · rw [h.domains]

theorem solvedBy_iff (h : Unmoved s t) (σ : Assignment) : t.SolvedBy σ ↔ s.SolvedBy σ := by
  rw [SolvedBy, SolvedBy, Solves, Solves, h.constraints, h.evolves.allVariables, h.domains]

/-- The store stays at its fixpoint. -/
theorem atFixpoint (h : Unmoved s t) (hs : AtFixpoint Q s) : AtFixpoint Q t := by
  have hidle : t.agenda.Consistent ∧ t.agenda.toList = [] := by
    rcases h.agenda with heq | heq
    · rw [heq]
      exact ⟨hs.coherent.agenda, hs.idle⟩
    · rw [heq]
      exact ⟨Agenda.consistent_empty, rfl⟩
  -- nothing was waiting, so forgetting what waits makes no difference
  have hrest := hs.coherent.resting hs.idle
  refine ⟨hs.toHealthy.evolves h.evolves (h.failure.trans hs.failure) ⟨?_, ?_, hidle.1, ?_⟩,
    hidle.2⟩
  · rw [h.domains, h.evolves.allVariables]
    exact hs.inhabited
  · rw [h.domains]
    exact hs.coherent.quiet
  · intro i c hc
    rw [h.constraints] at hc
    rw [h.domains]
    exact Or.inr (Or.inr (hrest.met c (mem_constraints hc)))

end Unmoved

/-- Going back to where no change was unnoticed leaves nothing behind. -/
theorem restore_unmoved (hst : s.domains.Stamped) (hquiet : s.domains.changes = [])
    (hev : Evolves s.snapshot.2 t) :
    ∃ u, t.restoreOwned s.snapshot.1 = (.ok (), u) ∧ Unmoved s u := by
  refine ⟨_, restore_of_evolves hst hev, ?_, hev.names, hev.constraints, hev.watchers, rfl,
    .inr rfl⟩
  exact Domains.settled_of_quiet hquiet

theorem AtFixpoint.restore (hs : AtFixpoint Q s) (hev : Evolves s.snapshot.2 t) :
    ∃ u, t.restoreOwned s.snapshot.1 = (.ok (), u) ∧ Unmoved s u :=
  restore_unmoved hs.stamped hs.coherent.quiet hev

end Store

end ConstraintSolver
