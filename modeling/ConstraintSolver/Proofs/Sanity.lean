import ConstraintSolver.Proofs.Histories

/-! # Sanity — a store that has not failed can go on

    In every history, no change of a domain is unnoticed and the agenda is
    consistent (`History.tidy`).  A store is sane if in addition every
    variable has a value, unless the store has failed (`Sane`).

    All operations keep a store sane, also those that fail (`Operates.sane`).
    Restoring a snapshot leads to a sane store if it is live, because the
    domains had values when it was taken (`Safe.restored`).  So a store is
    sane in every history in which discarded snapshots are left alone
    (`History.safe`).  If they are not, an empty domain may come together with
    a failure that is forgotten. -/

namespace ConstraintSolver

open Constraint

namespace Store

variable {s t : Store} {retries : Prop} {live discarded : List Snapshot}

/-! ## Tidy stores -/

/-- No change is unnoticed, and the agenda is consistent. -/
structure Tidy (s : Store) : Prop where
  quiet : s.domains.changes = []
  agenda : s.agenda.Consistent

/-- A store that fails is tidied up. -/
theorem tidy_fail (s : Store) (why : Inconsistency) : (s.fail why).Tidy :=
  ⟨rfl, Agenda.consistent_empty⟩

/-- Work that ends well leaves nothing to do. -/
theorem Tidy.work (h : s.Tidy) (current : Option ConstraintId)
    (hok : (s.work current).1 = .ok ()) :
    (s.work current).2.Tidy ∧ (s.work current).2.agenda.toList = [] := by
  induction s, current using work_induction with
  | finished s hpop => exact ⟨h, Agenda.toList_of_pop?_none hpop⟩
  | popped s id rest r hpop ih => exact ih ⟨h.quiet, (h.agenda.pop hpop).1⟩ hok
  | absent s id r hc ih => exact ih h hok
  | failed s id c why t hc hrun => cases hok
  | ran s id c t r hc hrun hq ih =>
      have hagenda := agenda_runOnce s id c
      rw [hrun] at hagenda
      exact ih ⟨hq, hagenda ▸ h.agenda⟩ hok
  | rerun s id c t r hc hrun _ ih =>
      have hagenda := agenda_runOnce s id c
      rw [hrun] at hagenda
      exact ih ⟨rfl, (mem_wake (hagenda ▸ h.agenda) _ _).1⟩ hok

/-- Propagation that ends well leaves nothing to do. -/
theorem Tidy.propagate_ok (h : s.Tidy) (hok : s.propagate = (.ok (), t)) :
    t.Tidy ∧ t.failure = none ∧ t.agenda.toList = [] := by
  obtain ⟨hf, hwork, rfl⟩ := Store.propagate_ok hok
  obtain ⟨htidy, hidle⟩ := h.work none hwork
  exact ⟨htidy, (failure_work s none).trans hf, hidle⟩

/-- Propagation leaves a store tidy. -/
theorem Tidy.propagate (h : s.Tidy) : s.propagate.2.Tidy := by
  cases hf : s.failure with
  | some why =>
      rw [propagate_of_failed hf]
      exact h
  | none =>
      cases hwork : (s.work none).1 with
      | ok _ =>
          rw [propagate_of_ok hf hwork]
          exact (h.work none hwork).1
      | error why =>
          rw [propagate_of_error hf hwork]
          exact tidy_fail _ why

/-- An update leaves a store tidy. -/
theorem Tidy.prune (h : s.Tidy) (v : Variable) (p : Pruning) : (s.prune v p).2.Tidy := by
  cases hv : s.owns v with
  | false =>
      rw [prune_of_foreign hv]
      exact h
  | true =>
      cases hf : s.failure with
      | some why =>
          rw [prune_of_failed hv hf]
          exact h
      | none =>
          rw [prune_eq hv hf p]
          split
          · exact tidy_fail _ _
          · exact ⟨rfl, (mem_wake (s := { s with domains := (s.domains.prune v p).2 })
              h.agenda _ _).1⟩

theorem Tidy.assign (h : s.Tidy) (v : Variable) (value : Int) : (s.assign v value).2.Tidy := by
  rw [Store.assign]
  split
  · exact h
  · split
    · exact h
    · exact h.prune v _

/-- Enlarging a store leaves it tidy. -/
theorem Tidy.enlarges (h : s.Tidy) (henlarges : Enlarges s t) : t.Tidy := by
  cases henlarges with
  | refused => exact h
  | declared => exact ⟨h.quiet, h.agenda⟩
  | extended => exact ⟨h.quiet, h.agenda⟩

/-- Imposing a constraint leaves a store tidy. -/
theorem Tidy.impose (h : s.Tidy) (c : Constraint) : (s.impose c).2.Tidy := by
  have hentered : (s.enter c).2.Tidy := ⟨h.quiet, h.agenda.enqueue _ _⟩
  rcases s.impose_cases c with heq | ⟨_, _, heq | ⟨e, heq⟩⟩
  · rw [heq]
    exact h
  · rw [heq]
    exact hentered.propagate
  · rw [heq]
    exact ⟨hentered.propagate.quiet, hentered.propagate.agenda⟩

/-- A store that a search gives back is tidy. -/
theorem Tidy.returned (ht : Search.Returned s t) : t.Tidy :=
  ⟨congrArg Domains.changes ht.domains, ht.agenda ▸ Agenda.consistent_empty⟩

/-- **ALL OPERATIONS** leave a store tidy. -/
theorem Operates.tidy (h : Operates s t) (hst : s.domains.Stamped) (hs : s.Tidy) : t.Tidy := by
  cases h with
  | newInteger lower upper name => exact hs.enlarges (newInteger_enlarges s lower upper name)
  | newSparse values name => exact hs.enlarges (newSparse_enlarges s values name)
  | newBoolean name => exact hs.enlarges (newBoolean_enlarges s name)
  | extendDomain v lower upper => exact hs.enlarges (extendDomain_enlarges s v lower upper)
  | impose c => exact hs.impose c
  | assign v value => exact hs.assign v value
  | removeValue v value => exact hs.prune v _
  | setLowerBound v bound => exact hs.prune v _
  | setUpperBound v bound => exact hs.prune v _
  | propagate => exact hs.propagate
  | search start session left => exact .returned (returned_of_session hst start session left)

/-- Restoring a snapshot leaves a tidy store tidy, also when it is refused. -/
theorem Tidy.restore (h : s.Tidy) (saved : Snapshot) : (s.restore saved).2.Tidy := by
  rcases s.restore_cases saved with heq | ⟨_, hlt, heq⟩
  · rw [heq]
    exact h
  · rw [heq]
    exact ⟨(Domains.restored s.domains (Nat.le_of_lt hlt)).changes, Agenda.consistent_empty⟩

/-- **EVERY HISTORY LEAVES A TIDY STORE.** -/
theorem History.tidy (h : History retries s live discarded) : s.Tidy := by
  induction h with
  | empty number listensTo => exact ⟨rfl, Agenda.consistent_empty⟩
  | operated hs hop ih => exact hop.tidy hs.ordered.stamped ih
  | snapshot _ ih => exact ⟨ih.quiet, ih.agenda⟩
  | restored _ ih => exact ih.restore _
  | retried _ _ ih => exact ih.restore _

/-! ## Values for all variables -/

/-- A tidy store in which every variable has a value, unless it has failed. -/
structure Sane (s : Store) : Prop extends Tidy s where
  inhabited : s.failure = none → Family.Inhabited s.domains.get s.allVariables

/-- Propagation empties no domain, or the store fails. -/
theorem Sane.propagate (h : s.Sane) : s.propagate.2.Sane := by
  refine ⟨h.toTidy.propagate, fun hf => ?_⟩
  cases hf' : s.failure with
  | some why =>
      rw [propagate_of_failed hf'] at hf ⊢
      exact h.inhabited hf
  | none =>
      cases hwork : (s.work none).1 with
      | ok _ =>
          rw [propagate_of_ok hf' hwork]
          exact work_inhabited s none (h.inhabited hf') hwork
      | error why =>
          rw [propagate_of_error hf' hwork] at hf
          cases hf

/-- An update empties no domain, or the store fails. -/
theorem Sane.prune (h : s.Sane) (v : Variable) (p : Pruning) : (s.prune v p).2.Sane := by
  refine ⟨h.toTidy.prune v p, fun hf w hw => ?_⟩
  rw [(evolves_prune s v p).allVariables] at hw
  cases hok : s.prune v p with
  | mk result t =>
      rw [hok] at hf
      cases result with
      | ok _ =>
          obtain ⟨hf', _, _, hget, ⟨x, hx, hk⟩, _⟩ := prune_ok hok
          rw [hget]
          split
          · exact ⟨x, Domain.mem_prune.mpr ⟨hx, hk⟩⟩
          · exact h.inhabited hf' w hw
      | error e =>
          -- an update that is refused changes nothing, and one that fails is remembered
          cases hv : s.owns v with
          | false =>
              rw [prune_of_foreign hv] at hok
              cases hok
              exact h.inhabited hf w hw
          | true =>
              cases hf' : s.failure with
              | some why =>
                  rw [prune_of_failed hv hf'] at hok
                  cases hok
                  exact h.inhabited hf w hw
              | none =>
                  rw [prune_eq hv hf'] at hok
                  split at hok
                  · cases hok
                    cases hf
                  · cases hok

/-- An assignment empties no domain, or the store fails. -/
theorem Sane.assign (h : s.Sane) (v : Variable) (value : Int) : (s.assign v value).2.Sane := by
  rw [Store.assign]
  split
  · exact h
  · split
    · exact h
    · exact h.prune v _

/-- Enlarging a store empties no domain. -/
theorem Sane.enlarges (h : s.Sane) (henlarges : Enlarges s t) : t.Sane := by
  refine ⟨h.toTidy.enlarges henlarges, ?_⟩
  cases henlarges with
  | refused => exact h.inhabited
  | declared _ inhabited name => exact fun hf => inhabited_grown (h.inhabited hf) inhabited name
  | extended _ owned =>
      rw [allVariables_extended]
      exact fun hf => inhabited_extended (h.inhabited hf) owned

/-- Imposing a constraint empties no domain, or the store fails. -/
theorem Sane.impose (h : s.Sane) (c : Constraint) : (s.impose c).2.Sane := by
  have hentered : (s.enter c).2.Sane := ⟨⟨h.quiet, h.agenda.enqueue _ _⟩, h.inhabited⟩
  refine ⟨h.toTidy.impose c, ?_⟩
  rcases s.impose_cases c with heq | ⟨_, _, heq | ⟨e, heq⟩⟩
  · rw [heq]
    exact h.inhabited
  · rw [heq]
    exact hentered.propagate.inhabited
  · rw [heq]
    exact hentered.propagate.inhabited

/-- **ALL OPERATIONS** leave a store sane. -/
theorem Operates.sane (h : Operates s t) (hst : s.domains.Stamped) (hs : s.Sane) : t.Sane := by
  have htidy := h.tidy hst hs.toTidy
  cases h with
  | newInteger lower upper name => exact hs.enlarges (newInteger_enlarges s lower upper name)
  | newSparse values name => exact hs.enlarges (newSparse_enlarges s values name)
  | newBoolean name => exact hs.enlarges (newBoolean_enlarges s name)
  | extendDomain v lower upper => exact hs.enlarges (extendDomain_enlarges s v lower upper)
  | impose c => exact hs.impose c
  | assign v value => exact hs.assign v value
  | removeValue v value => exact hs.prune v _
  | setLowerBound v bound => exact hs.prune v _
  | setUpperBound v bound => exact hs.prune v _
  | propagate => exact hs.propagate
  | search start session left =>
      -- whatever the search has tried, the domains are those it was begun with
      have ht := returned_of_session hst start session left
      refine ⟨htidy, fun hf => ?_⟩
      rw [ht.domains, ht.model.allVariables]
      exact hs.inhabited (ht.failure ▸ hf)

/-- The store is sane, and would be after any live snapshot has been restored. -/
structure Safe (s : Store) (live : List Snapshot) : Prop where
  sane : s.Sane
  back : ∀ saved ∈ live, saved.failure = none →
    Family.Inhabited (s.domains.restore saved.depth).get s.allVariables

/-- What can be returned to is as safe after an operation as before. -/
theorem Safe.continues (h : Safe s live) (hordered : Ordered s live discarded)
    (hgoes : Continues s t) (ht : t.Sane) : Safe t live := by
  refine ⟨ht, fun saved hsaved hf => ?_⟩
  have hlt := hordered.stacked.lt saved hsaved
  obtain ⟨hmodel, hretraces⟩ := hgoes.below (by omega)
  rw [hretraces.restore hordered.stamped saved.depth hlt, hmodel.allVariables]
  exact h.back saved hsaved hf

/-- A sane store may be returned to. -/
theorem Safe.snapshot (h : Safe s live) (hordered : Ordered s live discarded) :
    Safe s.snapshot.2 (s.snapshot.1 :: live) := by
  refine ⟨⟨⟨h.sane.quiet, h.sane.agenda⟩, h.sane.inhabited⟩, List.forall_mem_cons.mpr ⟨?_, ?_⟩⟩
  · intro hf
    change Family.Inhabited (s.domains.checkpoint.restore s.depth).get s.allVariables
    rw [Store.depth, Domains.restore_checkpoint]
    exact h.sane.inhabited hf
  · intro saved hsaved hf
    have hlt := hordered.stacked.lt saved hsaved
    change Family.Inhabited (s.domains.checkpoint.restore saved.depth).get s.allVariables
    rw [Domains.restore_checkpoint_of_lt hordered.stamped hlt]
    exact h.back saved hsaved hf

/-- Restoring a live snapshot leads to a safe store, with the snapshots before it. -/
theorem Safe.restored {newer older : List Snapshot} {saved : Snapshot}
    (h : Safe s (newer ++ saved :: older))
    (hordered : Ordered s (newer ++ saved :: older) discarded) :
    Safe (s.restore saved).2 older := by
  have hmem : saved ∈ newer ++ saved :: older := List.mem_append_right _ List.mem_cons_self
  have hlt := hordered.stacked.lt saved hmem
  have hres := Domains.restored s.domains (Nat.le_of_lt hlt)
  have hvars : ({ s with domains := s.domains.restore saved.depth } : Store).allVariables =
      s.allVariables := by
    simp only [allVariables, Domains.allVariables, hres.owner, hres.size]
  have htidy := h.sane.toTidy.restore saved
  rw [restore_eq (hordered.owned saved (List.mem_append_left _ hmem)) hlt] at htidy ⊢
  refine ⟨⟨htidy, fun hf => hvars ▸ h.back saved hmem hf⟩, fun other hother hf => ?_⟩
  have hle := Nat.le_of_lt (hordered.stacked.tail.lt other hother)
  change Family.Inhabited ((s.domains.restore saved.depth).restore other.depth).get _
  rw [hres.restore other.depth hle]
  have hother' : other ∈ newer ++ saved :: older :=
    List.mem_append_right _ (List.mem_cons_of_mem _ hother)
  exact hvars ▸ h.back other hother' hf

/-- **EVERY HISTORY IS SAFE** in which discarded snapshots are left alone. -/
theorem History.safe (h : History retries s live discarded) (hnone : ¬ retries) :
    Safe s live := by
  induction h with
  | empty number listensTo =>
      refine ⟨⟨⟨rfl, Agenda.consistent_empty⟩, fun _ v hv => ?_⟩, fun _ hsaved => nomatch hsaved⟩
      exact absurd (mem_allVariables.mp hv).2 (Nat.not_lt_zero _)
  | operated hs hop ih =>
      have hst := hs.ordered.stamped
      exact ih.continues hs.ordered (hop.continues hst) (hop.sane hst ih.sane)
  | snapshot hs ih => exact ih.snapshot hs.ordered
  | restored hs ih => exact ih.restored hs.ordered
  | retried permitted => exact absurd permitted hnone

end Store

end ConstraintSolver
