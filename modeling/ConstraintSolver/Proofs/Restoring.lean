import ConstraintSolver.Proofs.Histories

/-! # Restoring — a snapshot gives back the store it was taken of

    After a snapshot has been taken, all kinds of things may happen to the
    store, as long as no older snapshot is restored (`Since`).  The checkpoint
    of the snapshot stays open all the while, and undoing it leads to the same
    state (`Since.within`).  So restoring the snapshot succeeds and is exact,
    and the store which it gives back is as good as it was before
    (`restore_is_exact`).

    A snapshot that has been discarded ought to be refused.  A store only
    looks at the depth of a snapshot, though, and so it takes a discarded one
    for the live one of the same depth, if there is one
    (`discarded_is_refused_iff`). -/

namespace ConstraintSolver

open Constraint

namespace Store

variable {base s t u : Store} {taken : List Snapshot}

/-! ## After a snapshot -/

/-- What may have happened to a store since a snapshot of it was taken, with all
    snapshots taken after that one.  Any of them may have been restored, also
    several times. -/
inductive Since (base : Store) : List Snapshot → Store → Prop
  | taken : Since base [] base.snapshot.2
  | operated {taken : List Snapshot} {t u : Store} :
      Since base taken t → Operates t u → Since base taken u
  | snapshot {taken : List Snapshot} {t : Store} :
      Since base taken t → Since base (t.snapshot.1 :: taken) t.snapshot.2
  | restored {taken : List Snapshot} {t : Store} {saved : Snapshot} :
      Since base taken t → saved ∈ taken → Since base taken (t.restore saved).2

/-- The checkpoint of the snapshot is open, and undoing it leads back. -/
structure Within (base : Store) (taken : List Snapshot) (t : Store) : Prop where
  model : SameModel base t
  stamped : t.domains.Stamped
  deeper : base.depth < t.depth
  back : t.domains.restore base.depth = base.domains.settled
  later : ∀ saved ∈ taken, base.depth < saved.depth

theorem within_snapshot (hst : base.domains.Stamped) : Within base [] base.snapshot.2 := by
  refine ⟨⟨rfl, rfl, rfl, .refl _⟩, hst.checkpoint, ?_, base.domains.restore_checkpoint,
    fun _ hsaved => nomatch hsaved⟩
  have hdepth : base.snapshot.2.depth = base.depth + 1 := base.domains.depth_checkpoint
  omega

/-- What continues a state above the snapshot stays above it. -/
theorem Within.continues (h : Within base taken t) (hgoes : Continues t u) :
    Within base taken u := by
  have hdeeper := h.deeper
  obtain ⟨hmodel, hretraces⟩ := hgoes.below (by omega)
  refine ⟨h.model.trans hmodel, hgoes.stamped, hgoes.depth ▸ hdeeper, ?_, h.later⟩
  rw [hretraces.restore h.stamped base.depth hdeeper]
  exact h.back

/-- Snapshots taken above the first one are above it. -/
theorem Within.snapshot (h : Within base taken t) :
    Within base (t.snapshot.1 :: taken) t.snapshot.2 := by
  have hdepth : t.snapshot.2.depth = t.depth + 1 := t.domains.depth_checkpoint
  have hdeeper := h.deeper
  refine ⟨⟨h.model.names, h.model.constraints, h.model.watchers, h.model.shape⟩,
    h.stamped.checkpoint, by omega, ?_, List.forall_mem_cons.mpr ⟨hdeeper, h.later⟩⟩
  change t.domains.checkpoint.restore base.depth = _
  rw [Domains.restore_checkpoint_of_lt h.stamped hdeeper]
  exact h.back

/-- Going back part of the way leaves the rest of it. -/
theorem Within.restored (h : Within base taken t) {saved : Snapshot} (hsaved : saved ∈ taken) :
    Within base taken (t.restore saved).2 := by
  rcases t.restore_cases saved with heq | ⟨_, hlt, heq⟩
  · rw [heq]
    exact h
  · have hres := Domains.restored t.domains (Nat.le_of_lt hlt)
    have hlater := h.later saved hsaved
    rw [heq]
    refine ⟨⟨h.model.names, h.model.constraints, h.model.watchers,
      h.model.shape.trans ⟨hres.owner, hres.size⟩⟩, hres.stamped h.stamped, ?_, ?_, h.later⟩
    · change base.depth < (t.domains.restore saved.depth).depth
      rw [hres.depth]
      exact hlater
    · change (t.domains.restore saved.depth).restore base.depth = _
      rw [hres.restore base.depth (Nat.le_of_lt hlater)]
      exact h.back

/-- **THE WAY BACK STAYS OPEN** until an older snapshot is restored. -/
theorem Since.within (h : Since base taken t) (hst : base.domains.Stamped) :
    Within base taken t := by
  induction h with
  | taken => exact within_snapshot hst
  | operated _ hop ih => exact ih.continues (hop.continues ih.stamped)
  | snapshot _ ih => exact ih.snapshot
  | restored _ hsaved ih => exact ih.restored hsaved

/-- The stores have the same variables with the same values, the same constraints,
    have failed in the same way, and are at the same depth. -/
structure SameState (s t : Store) : Prop where
  domain : ∀ v, t.domain v = s.domain v
  failure : t.failure = s.failure
  names : t.names = s.names
  constraints : t.constraints = s.constraints
  watchers : t.watchers = s.watchers
  depth : t.depth = s.depth

theorem SameState.trans (h : SameState s t) (h' : SameState t u) : SameState s u :=
  ⟨fun v => (h'.domain v).trans (h.domain v), h'.failure.trans h.failure,
    h'.names.trans h.names, h'.constraints.trans h.constraints, h'.watchers.trans h.watchers,
    h'.depth.trans h.depth⟩

/-- **GOING BACK** to the first snapshot leads to the state in which it was taken. -/
theorem Within.restore (h : Within base taken t) (hst : base.domains.Stamped) :
    ∃ u, t.restore base.snapshot.1 = (.ok (), u) ∧ SameState base u ∧ u.domains.Stamped := by
  have hback : t.domains.restore base.snapshot.1.depth = base.domains.settled := h.back
  refine ⟨_, restore_eq h.model.number.symm h.deeper, ?_, ?_⟩
  · rw [hback]
    exact ⟨fun _ => rfl, rfl, h.model.names, h.model.constraints, h.model.watchers, rfl⟩
  · rw [hback]
    exact hst

/-- **RESTORING IS EXACT.**  Whatever has happened to a store since a snapshot of it was
    taken, short of going back further, restoring the snapshot succeeds and gives
    back the state of the store.  The same is true of snapshots taken afterwards, at
    the depth that is entered again. -/
theorem restore_is_exact {retries : Prop} {live discarded : List Snapshot}
    (hhistory : History retries base live discarded) (hsince : Since base taken t) :
    ∃ u, t.restore base.snapshot.1 = (.ok (), u) ∧ SameState base u ∧
      ∀ taken' t', Since u taken' t' →
        ∃ u', t'.restore u.snapshot.1 = (.ok (), u') ∧ SameState base u' := by
  have hst := hhistory.ordered.stamped
  obtain ⟨u, hu, hsame, hst'⟩ := (hsince.within hst).restore hst
  refine ⟨u, hu, hsame, fun taken' t' hsince' => ?_⟩
  obtain ⟨u', hu', hsame', _⟩ := (hsince'.within hst').restore hst'
  exact ⟨u', hu', hsame.trans hsame'⟩

/-- Two variables, the second of which is greater by one. -/
def successors : Store :=
  ((((Store.empty 0 none).newInteger 1 9 none).2.newInteger 1 9 none).2.impose
    (.linear ⟨0, 0⟩ 1 .equal ⟨0, 1⟩)).2

theorem history_successors (retries : Prop) : History retries successors [] [] :=
  .operated (.operated (.operated (.empty 0 none) (.newInteger ..)) (.newInteger ..)) (.impose ..)

/-- The variables of `successors` have been narrowed below a checkpoint. -/
def narrowedSuccessors : Store :=
  (successors.snapshot.2.setLowerBound ⟨0, 0⟩ 3).2.propagate.2

/-- Since then a value has been tried, which led to a failure; the trial was undone, and
    another one has been begun at the same depth. -/
def retriedSuccessors : Store :=
  let trial := ((narrowedSuccessors.snapshot.2.setUpperBound ⟨0, 1⟩ 6).2).propagate.2
  let failed := ((trial.snapshot.2.assign ⟨0, 0⟩ 4).2.propagate.2.removeValue ⟨0, 1⟩ 5).2
  ((failed.restore trial.snapshot.1).2.snapshot.2.removeValue ⟨0, 0⟩ 3).2

/-- Since the snapshot there have been updates, a failure and a trial that was undone. -/
theorem since_narrowedSuccessors : ∃ taken, Since narrowedSuccessors taken retriedSuccessors := by
  have hbegun : Since narrowedSuccessors [] narrowedSuccessors.snapshot.2 := .taken
  have trial := (hbegun.operated (.setUpperBound _ ⟨0, 1⟩ 6)).operated (.propagate _)
  have failed := ((trial.snapshot.operated (.assign _ ⟨0, 0⟩ 4)).operated (.propagate _)).operated
    (.removeValue _ ⟨0, 1⟩ 5)
  exact ⟨_, (failed.restored List.mem_cons_self).snapshot.operated (.removeValue _ ⟨0, 0⟩ 3)⟩

/-- The domains have changed three snapshots deep, and are as before after the first is
    restored. -/
theorem restoring_narrowedSuccessors_is_exact :
    retriedSuccessors.depth = 3 ∧
      retriedSuccessors.domain ⟨0, 0⟩ ≠ narrowedSuccessors.domain ⟨0, 0⟩ ∧
      ∃ u, retriedSuccessors.restore narrowedSuccessors.snapshot.1 = (.ok (), u) ∧
        SameState narrowedSuccessors u ∧
        ∀ taken' t', Since u taken' t' →
          ∃ u', t'.restore u.snapshot.1 = (.ok (), u') ∧ SameState narrowedSuccessors u' := by
  obtain ⟨taken, hsince⟩ := since_narrowedSuccessors
  have hhistory := (((history_successors False).snapshot).operated
    (.setLowerBound _ ⟨0, 0⟩ 3)).operated (.propagate _)
  exact ⟨by decide +kernel, by decide +kernel, restore_is_exact hhistory hsince⟩

/-! ## Discarded snapshots -/

/-- **A DISCARDED SNAPSHOT IS REFUSED**, and the store left as it is, exactly if no live
    snapshot has the same depth.  Otherwise it is taken for that one: the store goes
    back to where the live snapshot was taken, with the failure of the other. -/
theorem discarded_is_refused_iff {retries : Prop} {live discarded : List Snapshot}
    (hhistory : History retries s live discarded) {saved : Snapshot}
    (hsaved : saved ∈ discarded) :
    (s.restore saved = (.error (.misuse .staleSnapshot), s) ↔
        ∀ other ∈ live, other.depth ≠ saved.depth) ∧
      ∀ other ∈ live, other.depth = saved.depth →
        s.restore saved = (.ok (), { (s.restore other).2 with failure := saved.failure }) := by
  obtain ⟨_, hstacked, howned⟩ := hhistory.ordered
  have hstore : saved.store = s.number := howned saved (List.mem_append_right _ hsaved)
  have htaken : ∀ other ∈ live, other.depth = saved.depth →
      s.restore saved = (.ok (), { (s.restore other).2 with failure := saved.failure }) := by
    intro other hother hdepth
    have hlt := hstacked.lt other hother
    rw [restore_eq (howned other (List.mem_append_left _ hother)) hlt,
      restore_eq hstore (hdepth ▸ hlt), hdepth]
  refine ⟨⟨fun hrefused other hother hdepth => ?_, fun hnone => ?_⟩, htaken⟩
  · rw [htaken other hother hdepth] at hrefused
    cases hrefused
  · -- no live snapshot has this depth, so the store is not that deep
    refine restore_refused hstore fun hlt => ?_
    obtain ⟨other, hother, hdepth⟩ := hstacked.exists_depth hlt
    exact hnone other hother hdepth

/-- The second of two nested snapshots; restoring the first one discards it. -/
def discardedSnapshot : Snapshot := successors.snapshot.2.snapshot.1

/-- After that, two snapshots are nested again, with a change before each of them and
    one after both. -/
def reopenedSuccessors : Store :=
  let restored := (successors.snapshot.2.snapshot.2.restore successors.snapshot.1).2
  let outer := (restored.setUpperBound ⟨0, 0⟩ 4).2.snapshot.2
  ((outer.setLowerBound ⟨0, 0⟩ 2).2.snapshot.2.assign ⟨0, 0⟩ 3).2

/-- As many snapshots are open as were when the discarded one was taken. -/
theorem history_reopenedSuccessors (retries : Prop) :
    ∃ newest oldest, History retries reopenedSuccessors [newest, oldest] [discardedSnapshot] ∧
      newest.depth = discardedSnapshot.depth := by
  have hnested : History retries successors.snapshot.2.snapshot.2
      ([discardedSnapshot] ++ successors.snapshot.1 :: []) [] :=
    (history_successors retries).snapshot.snapshot
  have houter := (hnested.restored.operated (.setUpperBound _ ⟨0, 0⟩ 4)).snapshot
  have hinner := (houter.operated (.setLowerBound _ ⟨0, 0⟩ 2)).snapshot
  exact ⟨_, _, hinner.operated (.assign _ ⟨0, 0⟩ 3), by decide +kernel⟩

/-- The discarded snapshot is accepted in place of the live one at its depth. -/
theorem discarded_snapshot_is_accepted :
    ∃ live, History False reopenedSuccessors live [discardedSnapshot] ∧
      reopenedSuccessors.depth = 2 ∧ reopenedSuccessors.domain ⟨0, 0⟩ = .singleton 3 ∧
      ∃ u, reopenedSuccessors.restore discardedSnapshot = (.ok (), u) ∧ u.depth = 1 ∧
        u.domain ⟨0, 0⟩ = .between 2 4 := by
  obtain ⟨newest, oldest, hhistory, hdepth⟩ := history_reopenedSuccessors False
  have haccepted := (discarded_is_refused_iff hhistory (List.mem_singleton_self _)).2 newest
    List.mem_cons_self hdepth
  have hok : (reopenedSuccessors.restore discardedSnapshot).1 = .ok () := by rw [haccepted]
  exact ⟨_, hhistory, by decide +kernel, by decide +kernel, _, Prod.ext hok rfl,
    by decide +kernel, by decide +kernel⟩

end Store

end ConstraintSolver
