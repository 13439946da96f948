import ConstraintSolver.Store.Basic

/-! # Propagation to a fixpoint

    Waiting constraints are propagated one at a time.  A constraint is run
    until it changes nothing more; after every run that changed something,
    the other watchers of the changed variables are put on the agenda.  Each
    run either takes a value away or brings the agenda one constraint closer
    to its end, and so the work ends.

    A failure empties the agenda and stays with the store until a snapshot
    from before it is restored. -/

namespace ConstraintSolver

namespace Store

/-! ## The agenda -/

/-- Puts the watchers of some variables on the agenda. -/
def wake (s : Store) (changed : List Variable) (self : Option ConstraintId) : Store :=
  { s with
    agenda := changed.foldl
      (fun agenda v =>
        (s.watchersOf v).foldl
          (fun agenda id =>
            if some id = self then agenda
            else
              match s.constraint? id with
              | some c => agenda.enqueue id c.priority
              | none => agenda)
          agenda)
      s.agenda }

/-- Puts the watchers of the variables that were pruned on the agenda. -/
def wakeChanged (s : Store) (self : Option ConstraintId) : Store :=
  let woken := s.wake s.domains.takeChanges.1 self
  { woken with domains := woken.domains.takeChanges.2 }

/-- Remembers an inconsistency; no constraint waits any longer. -/
def fail (s : Store) (why : Inconsistency) : Store :=
  { s with failure := some why, agenda := .empty, domains := s.domains.settled }

/-! ## The work -/

/-- The outcome of a run which left the domains behind. -/
def outcome (result : Except Inconsistency Unit) (D : Domains) : Outcome :=
  match result with
  | .error _ => .failed
  | .ok () => if D.changes.isEmpty then .noChange else .domainChanged

/-- A single run of a constraint. -/
def runOnce (s : Store) (id : ConstraintId) (c : Constraint) :
    Except Inconsistency Unit × Store :=
  match s with
  | { domains, names, constraints, watchers, agenda, failure, propagations, journal } =>
      match c.propagate domains.settled with
      | (result, D) =>
          (result,
            { domains := D
              names := names
              constraints := constraints
              watchers := watchers
              agenda := agenda
              failure := failure
              propagations := propagations + 1
              journal := journal.record (.propagated id (outcome result D)) })

theorem agenda_runOnce (s : Store) (id : ConstraintId) (c : Constraint) :
    (s.runOnce id c).2.agenda = s.agenda := rfl

/-- A successful run takes values away, or reports that nothing changed. -/
theorem totalSize_runOnce {s t : Store} {id : ConstraintId} {c : Constraint}
    (h : s.runOnce id c = (.ok (), t)) :
    t.domains.totalSize ≤ s.domains.totalSize ∧
      (t.domains.changes = [] ∨ t.domains.totalSize < s.domains.totalSize) := by
  have hp : c.propagate s.domains.settled = (.ok (), t.domains) := by
    unfold runOnce at h
    simp only [Prod.mk.injEq] at h
    obtain ⟨h1, h2⟩ := h
    rw [← h2]
    exact Prod.ext h1 rfl
  exact Constraint.narrowing_propagate c _ _ hp

theorem totalSize_wakeChanged (s : Store) (self : Option ConstraintId) :
    (s.wakeChanged self).domains.totalSize = s.domains.totalSize := rfl

/-- Waking puts every constraint on the agenda at most once. -/
theorem size_wake (s : Store) (changed : List Variable) (self : Option ConstraintId) :
    (s.wake changed self).agenda.size ≤ s.agenda.size + s.constraints.size := by
  have hid : ∀ {id c}, s.constraint? id = some c → id.index < s.constraints.size :=
    fun h => (Array.getElem?_eq_some_iff.mp h).1
  -- what has arrived and what may still arrive add up to no more than before
  let total (a : Agenda) : Nat := a.size + Agenda.unflagged a.waiting s.constraints.size
  have hone : ∀ (a : Agenda) (id : ConstraintId),
      total (if some id = self then a
        else match s.constraint? id with
          | some c => a.enqueue id c.priority
          | none => a) ≤ total a := by
    intro a id
    split
    · exact Nat.le_refl _
    · split
      · rename_i c hc
        exact Nat.le_of_eq (Agenda.size_enqueue (hid hc) c.priority)
      · exact Nat.le_refl _
  have hmany : ∀ (ids : List ConstraintId) (a : Agenda),
      total (ids.foldl (fun a id =>
        if some id = self then a
        else match s.constraint? id with
          | some c => a.enqueue id c.priority
          | none => a) a) ≤ total a := by
    intro ids
    induction ids with
    | nil => exact fun a => Nat.le_refl _
    | cons id ids ih => exact fun a => Nat.le_trans (ih _) (hone a id)
  have hall : ∀ (vs : List Variable) (a : Agenda),
      total (vs.foldl (fun a v => (s.watchersOf v).foldl (fun a id =>
        if some id = self then a
        else match s.constraint? id with
          | some c => a.enqueue id c.priority
          | none => a) a) a) ≤ total a := by
    intro vs
    induction vs with
    | nil => exact fun a => Nat.le_refl _
    | cons v vs ih => exact fun a => Nat.le_trans (ih _) (hmany _ a)
  have h := hall changed s.agenda
  have hle := Agenda.unflagged_le s.agenda.waiting s.constraints.size
  have hwake : total (s.wake changed self).agenda ≤ total s.agenda := h
  simp only [total] at hwake
  omega

/-- How much work is left at most: a run takes a value away, or the agenda gets
    shorter. -/
def workLeft (s : Store) (current : Option ConstraintId) : Nat :=
  s.domains.totalSize * (2 * s.constraints.size + 2) + 2 * s.agenda.size + current.isSome.toNat

/-- After a run of one constraint there is less work left. -/
theorem workLeft_ran {s t : Store} {id : ConstraintId} {c : Constraint}
    (h : s.runOnce id c = (.ok (), t)) : t.workLeft none < s.workLeft (some id) := by
  have hs := (totalSize_runOnce h).1
  have ha := agenda_runOnce s id c
  have hc : (s.runOnce id c).2.constraints = s.constraints := rfl
  rw [h] at ha hc
  have hmul := Nat.mul_le_mul_right (2 * s.constraints.size + 2) hs
  simp only at ha hc
  simp only [workLeft, ha, hc, Option.isSome_some, Option.isSome_none, Bool.toNat_true,
    Bool.toNat_false]
  omega

/-- There is less work left, too, if the constraint has to run again. -/
theorem workLeft_rerun {s t : Store} {id : ConstraintId} {c : Constraint}
    (h : s.runOnce id c = (.ok (), t)) (hne : ¬ t.domains.changes = []) :
    (t.wakeChanged (some id)).workLeft (some id) < s.workLeft (some id) := by
  have hs := (totalSize_runOnce h).2.resolve_left hne
  have ha := agenda_runOnce s id c
  have hc : (s.runOnce id c).2.constraints = s.constraints := rfl
  have hwake : (t.wakeChanged (some id)).agenda.size ≤ t.agenda.size + t.constraints.size :=
    size_wake t _ _
  have hc' : (t.wakeChanged (some id)).constraints = t.constraints := rfl
  rw [h] at ha hc
  simp only at ha hc
  have hmul : (t.domains.totalSize + 1) * (2 * s.constraints.size + 2) ≤
      s.domains.totalSize * (2 * s.constraints.size + 2) := Nat.mul_le_mul_right _ hs
  rw [ha, hc] at hwake
  rw [Nat.add_mul, Nat.one_mul] at hmul
  simp only [workLeft, hc', hc, totalSize_wakeChanged, Option.isSome_some, Bool.toNat_true]
  omega

/-- Runs the current constraint until it changes nothing, and then those on
    the agenda, up to the first inconsistency. -/
def work (s : Store) (current : Option ConstraintId) : Except Inconsistency Unit × Store :=
  match current with
  | none =>
      match _h : s.agenda.pop? with
      | none => (.ok (), s)
      | some (id, rest) => work { s with agenda := rest } (some id)
  | some id =>
      match s.constraint? id with
      | none => work s none
      | some c =>
          match _h : s.runOnce id c with
          | (.error why, t) => (.error why, t)
          | (.ok (), t) =>
              if t.domains.changes = [] then work t none
              else work (t.wakeChanged (some id)) (some id)
termination_by s.workLeft current
decreasing_by
  · have := Agenda.size_of_pop? _h
    simp only [workLeft, Option.isSome_some, Option.isSome_none, Bool.toNat_true, Bool.toNat_false]
    omega
  · simp [workLeft]
  · exact workLeft_ran _h
  · rename_i hne
    exact workLeft_rerun _h hne

/-- Propagates the waiting constraints until no domain changes any more.  An
    inconsistency makes the store fail. -/
def propagate (s : Store) : Except Inconsistency Unit × Store :=
  match s.failure with
  | some why => (.error why, s)
  | none =>
      match s.work none with
      | (.ok (), t) => (.ok (), t)
      | (.error why, t) => (.error why, t.fail why)

/-! ## Imposing constraints -/

/-- Adds a constraint to the tables and to the agenda. -/
def enter (s : Store) (c : Constraint) : ConstraintId × Store :=
  let id := ConstraintId.ofIndex s.constraints.size
  (id,
    { s with
      constraints := s.constraints.push c
      watchers := c.scope.foldl (fun watchers v => watchers.modify v.index (·.push id)) s.watchers
      agenda := s.agenda.enqueue id c.priority
      journal := s.journal.record (.imposing c) })

/-- Adds a constraint and propagates.  The constraint stays part of the store
    also when propagation fails. -/
def impose (s : Store) (c : Constraint) : Except (Failure ModelError) ConstraintId × Store :=
  if s.isFailed then (.error (.refused .infeasibleState), s)
  else if !c.scope.all s.owns then (.error (.refused .ownershipMismatch), s)
  else if s.depth ≠ 0 then (.error (.misuse .imposedBelowRoot), s)
  else
    match s.enter c with
    | (id, entered) =>
        match entered.propagate with
        | (.ok (), t) => (.ok id, t)
        | (.error why, t) =>
            (.error (.refused (.modelInconsistent id)), t.note (.inconsistentAtRoot id why))

/-! ## Updates from outside -/

/-- Prunes a variable and puts its watchers on the agenda; propagation is left
    for later. -/
def prune (s : Store) (v : Variable) (p : Pruning) : Except UpdateError Unit × Store :=
  if !s.owns v then (.error .ownershipMismatch, s)
  else
    match s.failure with
    | some why => (.error (.inconsistent why), s)
    | none =>
        match s with
        | { domains, names, constraints, watchers, agenda, failure, propagations, journal } =>
            match domains.prune v p with
            | (effect, D) =>
                let t : Store :=
                  { domains := D
                    names := names
                    constraints := constraints
                    watchers := watchers
                    agenda := agenda
                    failure := failure
                    propagations := propagations
                    journal := journal }
                match effect with
                | .emptied => (.error (.inconsistent .emptyDomain), t.fail .emptyDomain)
                | _ => (.ok (), t.wakeChanged none)

/-- Restricts a variable to one of its values.  A value it cannot take is
    refused and changes nothing. -/
def assign (s : Store) (v : Variable) (value : Int) : Except UpdateError Unit × Store :=
  if !s.owns v then (.error .ownershipMismatch, s)
  else if !(s.domain v).contains value then (.error (.inconsistent .emptyDomain), s)
  else s.prune v (.exactly value)

/-- Takes a value away from a variable. -/
def removeValue (s : Store) (v : Variable) (value : Int) : Except UpdateError Unit × Store :=
  s.prune v (.except value)

/-- Takes the values below `bound` away from a variable. -/
def setLowerBound (s : Store) (v : Variable) (bound : Int) : Except UpdateError Unit × Store :=
  s.prune v (.atLeast bound)

/-- Takes the values above `bound` away from a variable. -/
def setUpperBound (s : Store) (v : Variable) (bound : Int) : Except UpdateError Unit × Store :=
  s.prune v (.atMost bound)

/-! ## Snapshots -/

/-- A state of a store which can be returned to. -/
structure Snapshot where
  store : Nat
  depth : Nat
  failure : Option Inconsistency
  deriving DecidableEq, Repr

/-- Remembers the present state.  A snapshot is meant to be taken when nothing
    waits, which only a debugging run would check; so no rule is broken here. -/
def snapshot (s : Store) : Snapshot × Store :=
  (⟨s.number, s.depth, s.failure⟩, { s with domains := s.domains.checkpoint })

/-- Returns to the state of a snapshot.  The snapshots taken after it are lost,
    and so is what waits on the agenda. -/
def restore (s : Store) (saved : Snapshot) : Except (Failure ModelError) Unit × Store :=
  if saved.store ≠ s.number then (.error (.refused .ownershipMismatch), s)
  else if ¬ saved.depth < s.depth then (.error (.misuse .staleSnapshot), s)
  else
    (.ok (),
      { s with
        domains := s.domains.restore saved.depth
        agenda := .empty
        failure := saved.failure })

end Store

end ConstraintSolver
