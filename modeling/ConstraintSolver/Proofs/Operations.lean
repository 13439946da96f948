import ConstraintSolver.Proofs.Fixpoint
import ConstraintSolver.Search.Completion

/-! # Operations — what propagation, updates and snapshots do to a store

    For each operation there is one description of its outcome, and one of
    what it keeps.  Propagation and updates only remove values (`Evolves`),
    also when they fail.  While the store has not failed they keep it
    coherent: an update wakes the watchers of what it prunes, and propagation
    leaves nothing waiting.  Restoring a snapshot gives back the domains and
    the failure, but always an empty agenda; what waited when the snapshot
    was taken is forgotten. -/

namespace ConstraintSolver

namespace Store

variable {s t : Store} {Q : Criterion}

/-! ## Failure -/

theorem evolves_fail (s : Store) (why : Inconsistency) : Evolves s (s.fail why) :=
  ⟨⟨rfl, rfl, rfl, .refl _⟩, Domains.retraces_settled _, le_refl s.domains.get⟩

theorem evolves_note (s : Store) (e : Event) : Evolves s (s.note e) :=
  ⟨⟨rfl, rfl, rfl, .refl _⟩, .refl _, le_refl s.domains.get⟩

/-! ## Propagation -/

/-- A store that has failed refuses to propagate. -/
theorem propagate_of_failed {why : Inconsistency} (h : s.failure = some why) :
    s.propagate = (.error why, s) := by
  unfold propagate
  rw [h]

/-- Propagation succeeds where the work does. -/
theorem propagate_of_ok (h : s.failure = none) (hok : (s.work none).1 = .ok ()) :
    s.propagate = (.ok (), (s.work none).2) := by
  unfold propagate
  rw [h]
  simp only
  split
  · rename_i t ht
    rw [ht]
  · rename_i ht
    rw [ht] at hok
    cases hok

/-- Where the work fails, the store fails, too. -/
theorem propagate_of_error (h : s.failure = none) {why : Inconsistency}
    (herr : (s.work none).1 = .error why) :
    s.propagate = (.error why, (s.work none).2.fail why) := by
  unfold propagate
  rw [h]
  simp only
  split
  · rename_i ht
    rw [ht] at herr
    cases herr
  · rename_i t ht
    rw [ht] at herr
    cases herr
    rw [ht]

/-- Propagation removes values, and everything before can be returned to. -/
theorem evolves_propagate (s : Store) : Evolves s s.propagate.2 := by
  cases hf : s.failure with
  | some why =>
      rw [propagate_of_failed hf]
      exact .refl s
  | none =>
      cases hr : (s.work none).1 with
      | ok u =>
          rw [propagate_of_ok hf hr]
          exact evolves_work s none
      | error why =>
          rw [propagate_of_error hf hr]
          exact (evolves_work s none).trans (evolves_fail _ why)

/-- A store that propagates well had not failed, and has done its work. -/
theorem propagate_ok (h : s.propagate = (.ok (), t)) :
    s.failure = none ∧ (s.work none).1 = .ok () ∧ t = (s.work none).2 := by
  cases hf : s.failure with
  | some why =>
      rw [propagate_of_failed hf] at h
      cases h
  | none =>
      cases hr : (s.work none).1 with
      | ok u =>
          rw [propagate_of_ok hf hr] at h
          exact ⟨rfl, rfl, (congrArg Prod.snd h).symm⟩
      | error why =>
          rw [propagate_of_error hf hr] at h
          cases h

/-- **PROPAGATION REACHES A FIXPOINT.** -/
theorem propagate_coherent (h : Coherent Q none s) (hw : s.Wired) (hnum : s.Numbered)
    (hok : s.propagate = (.ok (), t)) :
    Coherent Q none t ∧ t.agenda.toList = [] ∧ t.failure = none := by
  obtain ⟨hf, hwork, rfl⟩ := propagate_ok hok
  obtain ⟨hcoh, hempty⟩ := work_coherent s none h hw hnum hwork
  exact ⟨hcoh, hempty, (failure_work s none).trans hf⟩

/-- Propagation loses no solution. -/
theorem propagate_keeps_solution {σ : Assignment} (hf : s.failure = none) (hsuit : s.Propagable)
    (hw : s.Wired) (hdraw : Family.Draws s.domains.get s.allVariables σ) (hsat : s.Satisfies σ) :
    s.propagate.1 = .ok () ∧ Family.Draws s.propagate.2.domains.get s.allVariables σ := by
  obtain ⟨hok, hdraw'⟩ := work_keeps_solution hsuit hw hdraw hsat none
  rw [propagate_of_ok hf hok]
  exact ⟨rfl, hdraw'⟩

/-! ## Updates -/

/-- An update of a variable of another store is refused. -/
theorem prune_of_foreign {v : Variable} (hv : s.owns v = false) (p : Pruning) :
    s.prune v p = (.error .ownershipMismatch, s) := by
  unfold prune
  simp [hv]

/-- An update of a store that has failed is refused. -/
theorem prune_of_failed {v : Variable} {why : Inconsistency} (hv : s.owns v = true)
    (hf : s.failure = some why) (p : Pruning) :
    s.prune v p = (.error (.inconsistent why), s) := by
  unfold prune
  simp [hv, hf]

/-- An update of a store that has not failed. -/
theorem prune_eq {v : Variable} (hv : s.owns v = true) (hf : s.failure = none) (p : Pruning) :
    s.prune v p =
      if ((s.domains.get v).prune p).isEmpty then
        (.error (.inconsistent .emptyDomain),
          ({ s with domains := (s.domains.prune v p).2 } : Store).fail .emptyDomain)
      else (.ok (), ({ s with domains := (s.domains.prune v p).2 } : Store).wakeChanged none) := by
  have hiff := s.domains.prune_emptied_iff v p
  rw [prune]
  rw [if_neg (by simp [hv])]
  split
  · rename_i why h
    rw [hf] at h
    cases h
  · simp only
    -- the store asks the effect of the pruning, which tells whether a value is left
    cases he : (s.domains.prune v p).1 with
    | emptied =>
        rw [he] at hiff
        rw [if_pos (hiff.mp rfl)]
    | unchanged =>
        rw [he] at hiff
        rw [if_neg fun hempty => nomatch hiff.mpr hempty]
    | shrunk =>
        rw [he] at hiff
        rw [if_neg fun hempty => nomatch hiff.mpr hempty]

theorem evolves_pruned (s : Store) (v : Variable) (p : Pruning) :
    Evolves s { s with domains := (s.domains.prune v p).2 } :=
  ⟨⟨rfl, rfl, rfl, Domains.sameShape_prune ..⟩, Domains.retraces_prune ..,
    s.domains.get_prune_le v p⟩

/-- An update removes values, and everything before can be returned to. -/
theorem evolves_prune (s : Store) (v : Variable) (p : Pruning) : Evolves s (s.prune v p).2 := by
  cases hv : s.owns v with
  | false =>
      rw [prune_of_foreign hv]
      exact .refl s
  | true =>
      cases hf : s.failure with
      | some why =>
          rw [prune_of_failed hv hf]
          exact .refl s
      | none =>
          rw [prune_eq hv hf]
          split
          · exact (evolves_pruned s v p).trans (evolves_fail _ _)
          · exact (evolves_pruned s v p).trans (evolves_wakeChanged _ _)

/-- An update that succeeds leaves every value which it allows, and no other. -/
theorem prune_ok {v : Variable} {p : Pruning} (h : s.prune v p = (.ok (), t)) :
    s.failure = none ∧ t.failure = none ∧ Evolves s t ∧
      (∀ w, t.domains.get w = if w = v then (s.domains.get v).prune p else s.domains.get w) ∧
      (∃ x ∈ s.domains.get v, p.Keeps x) ∧
      t = ({ s with domains := (s.domains.prune v p).2 } : Store).wakeChanged none := by
  have hev := evolves_prune s v p
  cases hv : s.owns v with
  | false =>
      rw [prune_of_foreign hv] at h
      cases h
  | true =>
      cases hf : s.failure with
      | some why =>
          rw [prune_of_failed hv hf] at h
          cases h
      | none =>
          rw [h] at hev
          rw [prune_eq hv hf] at h
          split at h
          · cases h
          · rename_i hne
            rw [Bool.not_eq_true] at hne
            cases h
            refine ⟨rfl, hf, hev, s.domains.get_prune v p, ?_, by rw [hf]⟩
            -- without a value that is kept, the domain would be empty
            by_contra hno
            rw [← Bool.not_eq_true, Domain.isEmpty_iff] at hne
            exact hne fun x hx => hno ⟨x, Domain.mem_prune.mp hx⟩

/-- **UPDATES WAKE WHAT THEY DISTURB.** -/
theorem prune_coherent (h : Coherent Q none s) (hw : s.Wired) (hnum : s.Numbered) {v : Variable}
    {p : Pruning} (hok : s.prune v p = (.ok (), t)) : Coherent Q none t := by
  obtain ⟨_, _, hev, hget, ⟨x, hx, hk⟩, rfl⟩ := prune_ok hok
  refine h.woken hw hnum (evolves_pruned s v p) rfl ?_ ?_
  · have hlists := Domains.lists_prune s.domains v p
    rwa [Domains.settled_of_quiet h.quiet]
  · rw [(evolves_pruned s v p).allVariables]
    intro w hw'
    have hgetw := hget w
    change ∃ y, y ∈ (s.domains.prune v p).2.get w
    have hsame : (s.domains.prune v p).2.get w = _ := s.domains.get_prune v p w
    rw [hsame]
    split
    · exact ⟨x, Domain.mem_prune.mpr ⟨hx, hk⟩⟩
    · exact h.inhabited w hw'

/-- Assigning one of its values to a variable is pruning all others. -/
theorem assign_eq {v : Variable} {value : Int} (hv : s.owns v = true)
    (hmem : value ∈ s.domains.get v) : s.assign v value = s.prune v (.exactly value) := by
  rw [assign]
  rw [if_neg (by simp [hv]), if_neg]
  rw [Bool.not_eq_true', Bool.not_eq_false]
  exact Domain.contains_iff.mpr hmem

/-- An assignment removes values, and everything before can be returned to. -/
theorem evolves_assign (s : Store) (v : Variable) (value : Int) :
    Evolves s (s.assign v value).2 := by
  rw [assign]
  split
  · exact .refl s
  · split
    · exact .refl s
    · exact evolves_prune s v _

/-- An assignment that succeeds leaves exactly the value, which was there before. -/
theorem assign_ok {v : Variable} {value : Int} (h : s.assign v value = (.ok (), t)) :
    value ∈ s.domains.get v ∧ s.prune v (.exactly value) = (.ok (), t) := by
  rw [assign] at h
  split at h
  · cases h
  · split at h
    · cases h
    · rename_i hc
      rw [Bool.not_eq_true', Bool.not_eq_false] at hc
      exact ⟨Domain.contains_iff.mp hc, h⟩

/-- Assigning one of its values to a variable succeeds, unless the store has
    failed. -/
theorem assign_succeeds {v : Variable} {value : Int} (hv : s.owns v = true)
    (hmem : value ∈ s.domains.get v) (hf : s.failure = none) :
    (s.assign v value).1 = .ok () := by
  have hkeep : value ∈ (s.domains.get v).prune (.exactly value) :=
    (Constraint.mem_prune_exactly hmem).mpr rfl
  rw [assign_eq hv hmem, prune_eq hv hf, if_neg]
  intro hempty
  exact Domain.isEmpty_iff.mp hempty value hkeep

/-! ## Snapshots -/

/-- A state of the domains in which nothing is left to do. -/
structure Resting (Q : Criterion) (s : Store) (D : Domains) : Prop where
  inhabited : Family.Inhabited D.get s.allVariables
  met : ∀ c ∈ s.constraints.toList, Q.Met c D

/-- Where nothing waits, every constraint meets the criterion. -/
theorem Coherent.resting (h : Coherent Q none s) (hempty : s.agenda.toList = []) :
    Resting Q s s.domains := by
  refine ⟨h.inhabited, fun c hc => ?_⟩
  obtain ⟨i, hi, rfl⟩ := List.getElem_of_mem hc
  have hsome : s.constraints[i]? = some s.constraints.toList[i] := by
    rw [← Array.getElem?_toList]
    exact List.getElem?_eq_getElem hi
  rcases h.served i _ hsome with hwait | hcur | hmet
  · rw [hempty] at hwait
    cases hwait
  · cases hcur
  · exact hmet

/-- Where every constraint meets the criterion, none has to wait. -/
theorem Resting.coherent (h : Resting Q s s.domains) (hquiet : s.domains.changes = [])
    (hagenda : s.agenda = .empty) : Coherent Q none s := by
  refine ⟨h.inhabited, hquiet, ?_, fun i c hc => ?_⟩
  · rw [hagenda]
    exact Agenda.consistent_empty
  · exact Or.inr (Or.inr (h.met c (mem_constraints hc)))

theorem snapshot_eq (s : Store) :
    s.snapshot = (⟨s.number, s.depth, s.failure⟩, { s with domains := s.domains.checkpoint }) := rfl

/-- What restoring a snapshot gives back. -/
theorem restore_eq {saved : Snapshot} (hstore : saved.store = s.number)
    (hdepth : saved.depth < s.depth) :
    s.restore saved =
      (.ok (),
        { s with
          domains := s.domains.restore saved.depth
          agenda := .empty
          failure := saved.failure }) := by
  rw [restore]
  rw [if_neg (not_not.mpr hstore), if_neg (not_not.mpr hdepth)]

/-- An open snapshot of the store can be restored. -/
theorem restoreOwned_eq {saved : Snapshot} (hstore : saved.store = s.number)
    (hdepth : saved.depth < s.depth) :
    s.restoreOwned saved =
      (.ok (),
        { s with
          domains := s.domains.restore saved.depth
          agenda := .empty
          failure := saved.failure }) := by
  rw [restoreOwned]
  rw [restore_eq hstore hdepth]

end Store

end ConstraintSolver
