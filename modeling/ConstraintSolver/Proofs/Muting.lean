import ConstraintSolver.Proofs.Alike
import ConstraintSolver.Proofs.Completion
import ConstraintSolver.Search.DepthFirst

/-! # Muting — nothing depends on what is told

    A store tells events to its journal, and nothing it does looks at the
    journal again.  So a store that is muted does the same as before: every
    operation has the same outcome in it, and ends in the muted store of where
    it would have ended otherwise (`propagate_muted`, `assign_muted`,
    `restore_muted`).  The completion check, which does all of this over and
    over, is no exception (`hasCompletion_muted`). -/

namespace ConstraintSolver

namespace Store

/-- The store without anyone to listen, and without anything told so far. -/
def muted (s : Store) : Store := { s with journal := .empty none }

/-- An outcome, and the muted store. -/
def mute {α : Type} (r : α × Store) : α × Store := (r.1, r.2.muted)

variable {α : Type} {s t : Store}

@[simp] theorem mute_mk (result : α) (t : Store) : mute (result, t) = (result, t.muted) := rfl

@[simp] theorem note_muted (s : Store) (e : Event) : s.muted.note e = s.muted := rfl

@[simp] theorem muted_note (s : Store) (e : Event) : (s.note e).muted = s.muted := rfl

theorem domain_muted (s : Store) : s.muted.domain = s.domain := rfl

theorem owns_muted (s : Store) : s.muted.owns = s.owns := rfl

/-! ## Propagation -/

/-- A run does not depend on what has been told. -/
theorem runOnce_muted (s : Store) (id : ConstraintId) (c : Constraint) :
    s.muted.runOnce id c = mute (s.runOnce id c) := rfl

/-- Work does not depend on what has been told. -/
theorem work_muted (s : Store) (current : Option ConstraintId) :
    s.muted.work current = mute (s.work current) := by
  have hran : ∀ {s t : Store} {id : ConstraintId} {c : Constraint}
      {result : Except Inconsistency Unit}, s.runOnce id c = (result, t) →
        s.muted.runOnce id c = (result, t.muted) := by
    intro s t id c result hrun
    rw [runOnce_muted, hrun, mute_mk]
  -- the muted store goes through the same cases
  induction s, current using work_induction with
  | finished s hpop => rw [work_finished (s := s.muted) hpop, mute_mk]
  | popped s id rest r hpop ih =>
      rw [work_popped (s := s.muted) hpop]
      exact ih
  | absent s id r hc ih =>
      rw [work_absent (s := s.muted) hc]
      exact ih
  | failed s id c why t hc hrun =>
      rw [work_failed (s := s.muted) hc (hran hrun), mute_mk]
  | ran s id c t r hc hrun hq ih =>
      rw [work_ran (s := s.muted) hc (hran hrun),
        if_pos (show t.muted.domains.changes = [] from hq)]
      exact ih
  | rerun s id c t r hc hrun hne ih =>
      rw [work_ran (s := s.muted) hc (hran hrun),
        if_neg (show ¬ t.muted.domains.changes = [] from hne)]
      exact ih

/-- Propagation does not depend on what has been told. -/
theorem propagate_muted (s : Store) : s.muted.propagate = mute s.propagate := by
  have hwork := s.work_muted none
  rw [propagate, propagate, hwork]
  have hfailure : s.muted.failure = s.failure := rfl
  rw [hfailure]
  cases s.failure with
  | some why => rfl
  | none => rcases s.work none with ⟨_ | _, t⟩ <;> rfl

/-! ## Updates and snapshots -/

/-- An update does not depend on what has been told. -/
theorem prune_muted (s : Store) (v : Variable) (p : Pruning) :
    s.muted.prune v p = mute (s.prune v p) := by
  cases hv : s.owns v with
  | false => rw [prune_of_foreign hv, prune_of_foreign (s := s.muted) hv, mute_mk]
  | true =>
      cases hf : s.failure with
      | some why => rw [prune_of_failed hv hf, prune_of_failed (s := s.muted) hv hf, mute_mk]
      | none =>
          rw [prune_eq hv hf, prune_eq (s := s.muted) hv hf]
          by_cases hempty : ((s.domains.get v).prune p).isEmpty = true
          · rw [if_pos hempty, if_pos (show ((s.muted.domains.get v).prune p).isEmpty = true from
              hempty)]
            rfl
          · rw [if_neg hempty, if_neg (show ¬ ((s.muted.domains.get v).prune p).isEmpty = true from
              hempty)]
            rfl

/-- An assignment does not depend on what has been told. -/
theorem assign_muted (s : Store) (v : Variable) (value : Int) :
    s.muted.assign v value = mute (s.assign v value) := by
  rw [assign, assign, owns_muted, domain_muted, prune_muted]
  split
  · rfl
  · split
    · rfl
    · rfl

/-- A snapshot does not depend on what has been told. -/
theorem snapshot_muted (s : Store) : s.muted.snapshot = mute s.snapshot := rfl

/-- Restoring a snapshot does not depend on what has been told. -/
theorem restore_muted (s : Store) (saved : Snapshot) :
    s.muted.restore saved = mute (s.restore saved) := by
  have hnumber : s.muted.number = s.number := rfl
  have hdepth : s.muted.depth = s.depth := rfl
  rw [restore, restore, hnumber, hdepth]
  split
  · rfl
  · split
    · rfl
    · rfl

theorem restoreOwned_muted (s : Store) (saved : Snapshot) :
    s.muted.restoreOwned saved = mute (s.restoreOwned saved) := by
  rw [restoreOwned, restoreOwned, restore_muted]
  rcases s.restore saved with ⟨(_ | _) | _, t⟩ <;> rfl

/-! ## The completion check -/

/-- Trying a value does not depend on what has been told. -/
theorem tryValue_muted (s : Store) (v : Variable) (value : Int) :
    s.muted.tryValue v value = mute (s.tryValue v value) := by
  rw [tryValue, tryValue, assign_muted]
  rcases s.assign v value with ⟨_ | _, t⟩
  · rfl
  · simp only [mute_mk]
    rw [propagate_muted]
    rcases t.propagate with ⟨_ | _, u⟩ <;> rfl

variable {complete : Store → Except Misuse Bool × Store}

/-- A trial does not depend on what has been told, if completing does not. -/
theorem trial_muted (h : ∀ s, complete s.muted = mute (complete s)) (s : Store) (v : Variable)
    (value : Int) : trial complete s.muted v value = mute (trial complete s v value) := by
  rw [trial, trial, tryValue_muted]
  rcases s.tryValue v value with ⟨_ | _, t⟩
  · rfl
  · exact h t

/-- The least candidate is tried first, and then the others. -/
theorem anyCandidate_eq {v : Variable} {candidates : Domain} {value : Int}
    (h : candidates.min? = some value) (s : Store) :
    anyCandidate complete v candidates s =
      match trial complete s.snapshot.2 v value with
      | (.error rule, t) => (.error rule, t)
      | (.ok found, t) =>
          match t.restoreOwned s.snapshot.1 with
          | (.error rule, t) => (.error rule, t)
          | (.ok (), t) =>
              if found then (.ok true, t)
              else anyCandidate complete v (candidates.prune (.except value)) t := by
  rw [anyCandidate]
  split
  · rename_i heq
    rw [h] at heq
    cases heq
  · rename_i x heq
    obtain rfl : value = x := Option.some.inj (h.symm.trans heq)
    rfl

/-- Which candidate can be completed does not depend on what has been told. -/
theorem anyCandidate_muted (h : ∀ s, complete s.muted = mute (complete s)) (v : Variable)
    (candidates : Domain) (s : Store) :
    anyCandidate complete v candidates s.muted = mute (anyCandidate complete v candidates s) := by
  induction candidates using Domain.candidates_induction generalizing s with
  | none candidates hmin => rw [anyCandidate_none hmin, anyCandidate_none hmin, mute_mk]
  | some candidates value hmin ih =>
      rw [anyCandidate_eq hmin, anyCandidate_eq hmin, snapshot_muted]
      simp only [mute]
      rw [trial_muted h]
      rcases trial complete s.snapshot.2 v value with ⟨_ | found, t⟩
      · rfl
      · simp only [mute_mk]
        rw [restoreOwned_muted]
        rcases t.restoreOwned s.snapshot.1 with ⟨_ | _, u⟩
        · rfl
        · cases found with
          | true => rfl
          | false => exact ih u

/-- Whether there is a completion does not depend on what has been told. -/
theorem completes_muted (depth : Nat) (s : Store) :
    completes depth s.muted = mute (completes depth s) := by
  induction depth generalizing s with
  | zero => rfl
  | succ depth ih =>
      have hbest : TieBreaker.best? .minimum s.muted.undecidedVariables
          (fun v => (s.muted.domain v).size) = TieBreaker.best? .minimum s.undecidedVariables
            fun v => (s.domain v).size := rfl
      rw [completes, completes, hbest]
      split
      · rfl
      · exact anyCandidate_muted ih _ _ s

/-- **THE COMPLETION CHECK** has the same outcome in a muted store. -/
theorem hasCompletion_muted (s : Store) : s.muted.hasCompletion = mute s.hasCompletion :=
  completes_muted (s.variableCount + 1) s

end Store

namespace Search

/-- What is read off a store is not told by its journal. -/
theorem readSolution_muted (s : Store) (scope : List Variable) :
    readSolution s.muted scope = readSolution s scope := by
  induction scope with
  | nil => rfl
  | cons v vs ih =>
      rw [readSolution, readSolution, ih]
      rfl

end Search

end ConstraintSolver
