import ConstraintSolver.Proofs.Reachable

/-! # Histories — what can happen to a store and to its snapshots

    A history is any sequence of operations, with snapshots taken and restored
    in between (`History`).  A snapshot is live until it is restored.  If one
    that was taken before it is restored first, it is discarded; a history may
    try discarded snapshots again, or leave them alone.

    Operations other than taking and restoring snapshots keep the checkpoints
    as they are, and below the root they only remove values
    (`Operates.continues`).  So in every history the trail can be undone, and
    the live snapshots belong to the open checkpoints, one to each
    (`History.ordered`).

    What can be reached by operations comes about in a history
    (`Reached.history`). -/

namespace ConstraintSolver

open Constraint

namespace Store

/-! ## Operations -/

/-- A single operation on a store, whether or not it succeeds.  Snapshots are not
    taken or restored by it, except those of a search. -/
inductive Operates : Store → Store → Prop
  | newInteger (s : Store) (lower upper : Int) (name : Option String) :
      Operates s (s.newInteger lower upper name).2
  | newSparse (s : Store) (values : List Int) (name : Option String) :
      Operates s (s.newSparse values name).2
  | newBoolean (s : Store) (name : Option String) : Operates s (s.newBoolean name).2
  | extendDomain (s : Store) (v : Variable) (lower upper : Int) :
      Operates s (s.extendDomain v lower upper).2
  | impose (s : Store) (c : Constraint) : Operates s (s.impose c).2
  | assign (s : Store) (v : Variable) (value : Int) : Operates s (s.assign v value).2
  | removeValue (s : Store) (v : Variable) (value : Int) : Operates s (s.removeValue v value).2
  | setLowerBound (s : Store) (v : Variable) (bound : Int) :
      Operates s (s.setLowerBound v bound).2
  | setUpperBound (s : Store) (v : Variable) (bound : Int) :
      Operates s (s.setUpperBound v bound).2
  | propagate (s : Store) : Operates s s.propagate.2
  /-- A search is begun, used in any way, and left. -/
  | search {s t : Store} {ρ τ : Type} {policy : Policy ρ} {rule : TerminationRule τ}
      {goal : SearchGoal} {random : ρ} {termination : τ} {begun used : Search ρ τ}
      {reported : List Solution} (start : Search.start goal random termination s = .ok begun)
      (session : Search.Session policy rule begun reported used)
      (left : used.release = (.ok (), t)) : Operates s t

/-- What becomes of a store without going back: below the root it has the same
    variables and constraints, and can be taken back to the same states. -/
structure Continues (s t : Store) : Prop where
  number : t.number = s.number
  depth : t.depth = s.depth
  stamped : t.domains.Stamped
  below : s.depth ≠ 0 → SameModel s t ∧ s.domains.Retraces t.domains

variable {s t : Store}

/-- A store with stamped domains continues itself. -/
theorem Continues.refl (hst : s.domains.Stamped) : Continues s s :=
  ⟨rfl, rfl, hst, fun _ => ⟨.refl s, .refl _⟩⟩

/-- What only takes values away continues the store. -/
theorem Evolves.continues (h : Evolves s t) (hst : s.domains.Stamped) : Continues s t :=
  ⟨h.number, h.retraces.depth, h.retraces.stamped hst, fun _ => ⟨h.toSameModel, h.retraces⟩⟩

/-- Enlarging a store at the root continues it. -/
theorem Enlarges.continues (h : Enlarges s t) (hst : s.domains.Stamped) : Continues s t := by
  cases h with
  | refused => exact .refl hst
  | declared root _ name =>
      exact ⟨rfl, rfl, Domains.stamped_push hst root _, fun hne => absurd root hne⟩
  | extended root _ _ d =>
      exact ⟨rfl, rfl, Domains.stamped_extend hst root _ d, fun hne => absurd root hne⟩

/-- A new constraint continues the store. -/
theorem impose_continues (hst : s.domains.Stamped) (c : Constraint) :
    Continues s (s.impose c).2 := by
  rcases s.impose_cases c with heq | ⟨_, hroot, heq⟩
  · rw [heq]
    exact .refl hst
  · have hev : Evolves (s.enter c).2 (s.impose c).2 := by
      have hprop := evolves_propagate (s.enter c).2
      rcases heq with heq | ⟨e, heq⟩
      · rw [heq]
        exact hprop
      · rw [heq]
        exact hprop.trans (evolves_note _ e)
    obtain ⟨hnumber, hdepth, hst', _⟩ := hev.continues hst
    exact ⟨hnumber, hdepth, hst', fun hne => absurd hroot hne⟩

/-- The store a search returns to is the one it began in, as far as going back is
    concerned. -/
theorem returned_continues (hst : s.domains.Stamped) (h : Search.Returned s t) :
    Continues s t := by
  have hretraces : s.domains.Retraces t.domains := h.domains ▸ Domains.retraces_settled _
  exact ⟨h.model.number, hretraces.depth, hretraces.stamped hst, fun _ => ⟨h.model, hretraces⟩⟩

/-- However a search is used, the store returns to where the search began. -/
theorem returned_of_session {ρ τ : Type} {policy : Policy ρ} {rule : TerminationRule τ}
    {goal : SearchGoal} {random : ρ} {termination : τ} {begun used : Search ρ τ}
    {reported : List Solution} (hst : s.domains.Stamped)
    (hstart : Search.start goal random termination s = .ok begun)
    (hsession : Search.Session policy rule begun reported used)
    (hleft : used.release = (.ok (), t)) : Search.Returned s t := by
  obtain ⟨begun', hstart', hbegun⟩ :=
    Search.start_begun hst (owns_of_start hstart) random termination
  rw [hstart] at hstart'
  cases hstart'
  obtain ⟨u, hu, hreturned⟩ := hsession.release hbegun
  rw [hleft] at hu
  cases hu
  exact hreturned

/-- **OPERATIONS GO ON** from where the store is, and do not lose the way back. -/
theorem Operates.continues (h : Operates s t) (hst : s.domains.Stamped) : Continues s t := by
  cases h with
  | newInteger lower upper name => exact (newInteger_enlarges s lower upper name).continues hst
  | newSparse values name => exact (newSparse_enlarges s values name).continues hst
  | newBoolean name => exact (newBoolean_enlarges s name).continues hst
  | extendDomain v lower upper => exact (extendDomain_enlarges s v lower upper).continues hst
  | impose c => exact impose_continues hst c
  | assign v value => exact (evolves_assign s v value).continues hst
  | removeValue v value => exact (evolves_prune s v _).continues hst
  | setLowerBound v bound => exact (evolves_prune s v _).continues hst
  | setUpperBound v bound => exact (evolves_prune s v _).continues hst
  | propagate => exact (evolves_propagate s).continues hst
  | search start session left =>
      exact returned_continues hst (returned_of_session hst start session left)

/-- A snapshot is refused while the store is no deeper than where it was taken. -/
theorem restore_refused {saved : Snapshot} (hstore : saved.store = s.number)
    (hdepth : ¬ saved.depth < s.depth) :
    s.restore saved = (.error (.misuse .staleSnapshot), s) := by
  rw [restore, if_neg (not_not.mpr hstore), if_pos hdepth]

/-- Restoring a snapshot changes nothing, or goes back to its depth. -/
theorem restore_cases (s : Store) (saved : Snapshot) :
    (s.restore saved).2 = s ∨
      (saved.store = s.number ∧ saved.depth < s.depth ∧
        (s.restore saved).2 =
          { s with
            domains := s.domains.restore saved.depth
            agenda := .empty
            failure := saved.failure }) := by
  by_cases hstore : saved.store = s.number
  · by_cases hdepth : saved.depth < s.depth
    · exact Or.inr ⟨hstore, hdepth, by rw [restore_eq hstore hdepth]⟩
    · exact Or.inl (by rw [restore_refused hstore hdepth])
  · left
    rw [restore, if_pos hstore]

/-- Restoring a snapshot, also a discarded one, leaves the variables and constraints. -/
theorem sameModel_restore (s : Store) (saved : Snapshot) : SameModel s (s.restore saved).2 := by
  rcases s.restore_cases saved with heq | ⟨_, hlt, heq⟩
  · rw [heq]
    exact .refl s
  · have hres := Domains.restored s.domains (Nat.le_of_lt hlt)
    rw [heq]
    exact ⟨rfl, rfl, rfl, hres.owner, hres.size⟩

/-! ## Histories -/

/-- The stores that come about by operations and snapshots, with the snapshots which
    are live, the newest first, and those which have been discarded.  Whether
    discarded snapshots are ever tried again is up to `retries`. -/
inductive History (retries : Prop) : Store → List Snapshot → List Snapshot → Prop
  | empty (number : Nat) (listensTo : Option Level) :
      History retries (.empty number listensTo) [] []
  | operated {s t : Store} {live discarded : List Snapshot} :
      History retries s live discarded → Operates s t → History retries t live discarded
  | snapshot {s : Store} {live discarded : List Snapshot} :
      History retries s live discarded →
        History retries s.snapshot.2 (s.snapshot.1 :: live) discarded
  /-- The snapshots taken after the one that is restored are discarded. -/
  | restored {s : Store} {newer older discarded : List Snapshot} {saved : Snapshot} :
      History retries s (newer ++ saved :: older) discarded →
        History retries (s.restore saved).2 older (newer ++ discarded)
  /-- A discarded snapshot is tried.  The live snapshots whose checkpoints it closes
      are discarded. -/
  | retried {s : Store} {live before after : List Snapshot} {saved : Snapshot}
      (permitted : retries) :
      History retries s live (before ++ saved :: after) →
        History retries (s.restore saved).2
          (live.filter fun other => other.depth < saved.depth)
          ((live.filter fun other => ¬ other.depth < saved.depth) ++ (before ++ after))

/-- The snapshots were taken at all depths below the given one, the newest at the
    greatest. -/
def Stacked : List Snapshot → Nat → Prop
  | [], depth => depth = 0
  | saved :: older, depth => saved.depth + 1 = depth ∧ Stacked older saved.depth

namespace Stacked

variable {live newer older : List Snapshot} {saved : Snapshot} {depth : Nat}

theorem lt (h : Stacked live depth) : ∀ other ∈ live, other.depth < depth := by
  induction live generalizing depth with
  | nil => exact fun _ hother => nomatch hother
  | cons newest older ih =>
      obtain ⟨hdepth, hbelow⟩ := h
      refine List.forall_mem_cons.mpr ⟨by omega, fun other hother => ?_⟩
      have := ih hbelow other hother
      omega

/-- Every open checkpoint has a live snapshot. -/
theorem exists_depth (h : Stacked live depth) {k : Nat} (hk : k < depth) :
    ∃ other ∈ live, other.depth = k := by
  induction live generalizing depth with
  | nil =>
      rw [Stacked] at h
      omega
  | cons newest older ih =>
      obtain ⟨hdepth, hbelow⟩ := h
      by_cases hnewest : newest.depth = k
      · exact ⟨newest, List.mem_cons_self, hnewest⟩
      · obtain ⟨other, hother, heq⟩ := ih hbelow (by omega)
        exact ⟨other, List.mem_cons_of_mem _ hother, heq⟩

theorem tail (h : Stacked (newer ++ saved :: older) depth) : Stacked older saved.depth := by
  induction newer generalizing depth with
  | nil => exact h.2
  | cons newest newer ih => exact ih h.2

theorem below (h : Stacked live depth) (k : Nat) :
    Stacked (live.filter fun other => other.depth < k) (min k depth) := by
  induction live generalizing depth with
  | nil =>
      obtain rfl : depth = 0 := h
      exact Nat.min_zero k
  | cons newest older ih =>
      obtain ⟨hdepth, hbelow⟩ := h
      by_cases hlt : newest.depth < k
      · rw [List.filter_cons_of_pos (by simpa using hlt)]
        have hmin : min k newest.depth = newest.depth := by omega
        refine ⟨by omega, ?_⟩
        have := ih hbelow
        rwa [hmin] at this
      · rw [List.filter_cons_of_neg (by simpa using hlt)]
        have hmin : min k depth = min k newest.depth := by omega
        rw [hmin]
        exact ih hbelow

end Stacked

/-- **THE ORDER OF SNAPSHOTS**: the trail can be undone, and the live snapshots belong
    to the open checkpoints. -/
structure Ordered (s : Store) (live discarded : List Snapshot) : Prop where
  stamped : s.domains.Stamped
  stacked : Stacked live s.depth
  owned : ∀ saved ∈ live ++ discarded, saved.store = s.number

variable {retries : Prop} {live discarded : List Snapshot}

/-- Going back to a depth, with the snapshots from below it. -/
theorem Ordered.back (h : Ordered s live discarded) {saved : Snapshot}
    (hdepth : saved.depth ≤ s.depth) {live' discarded' : List Snapshot}
    (hstacked : Stacked live' saved.depth)
    (howned : ∀ other ∈ live' ++ discarded', other ∈ live ++ discarded) :
    Ordered
      { s with
        domains := s.domains.restore saved.depth
        agenda := .empty
        failure := saved.failure } live' discarded' := by
  have hres := Domains.restored s.domains hdepth
  refine ⟨hres.stamped h.stamped, ?_, fun other hother => ?_⟩
  · have hdepth' : (s.domains.restore saved.depth).depth = saved.depth := hres.depth
    rw [Store.depth, hdepth']
    exact hstacked
  · exact (h.owned other (howned other hother)).trans hres.owner.symm

/-- **EVERY HISTORY IS ORDERED.** -/
theorem History.ordered (h : History retries s live discarded) : Ordered s live discarded := by
  induction h with
  | empty number listensTo =>
      exact ⟨Domains.stamped_empty number, rfl, fun _ hsaved => nomatch hsaved⟩
  | operated _ hop ih =>
      obtain ⟨hnumber, hdepth, hst, _⟩ := hop.continues ih.stamped
      refine ⟨hst, ?_, fun saved hsaved => (ih.owned saved hsaved).trans hnumber.symm⟩
      rw [hdepth]
      exact ih.stacked
  | @snapshot s live discarded _ ih =>
      refine ⟨ih.stamped.checkpoint, ⟨(Domains.depth_checkpoint s.domains).symm, ih.stacked⟩, ?_⟩
      exact List.forall_mem_cons.mpr ⟨rfl, ih.owned⟩
  | @restored s newer older discarded saved _ ih =>
      have hmem : saved ∈ newer ++ saved :: older :=
        List.mem_append_right _ List.mem_cons_self
      have hlt := ih.stacked.lt saved hmem
      rw [restore_eq (ih.owned saved (List.mem_append_left _ hmem)) hlt]
      refine ih.back (Nat.le_of_lt hlt) ih.stacked.tail fun other hother => ?_
      simp only [List.mem_append, List.mem_cons] at hother ⊢
      tauto
  | @retried s live before after saved permitted _ ih =>
      have hsub : ∀ other ∈ (live.filter fun other => other.depth < saved.depth) ++
          ((live.filter fun other => ¬ other.depth < saved.depth) ++ (before ++ after)),
          other ∈ live ++ (before ++ saved :: after) := by
        intro other hother
        simp only [List.mem_append, List.mem_filter, List.mem_cons] at hother ⊢
        tauto
      have hstacked := ih.stacked.below saved.depth
      have hstore : saved.store = s.number := ih.owned saved (by simp)
      -- a discarded snapshot is taken for the one that was opened at its depth since, if there
      -- is one
      by_cases hlt : saved.depth < s.depth
      · rw [Nat.min_eq_left (Nat.le_of_lt hlt)] at hstacked
        rw [restore_eq hstore hlt]
        exact ih.back (Nat.le_of_lt hlt) hstacked hsub
      · rw [Nat.min_eq_right (Nat.not_lt.mp hlt)] at hstacked
        rw [restore_refused hstore hlt]
        exact ⟨ih.stamped, hstacked, fun other hother => ih.owned other (hsub other hother)⟩

/-- What is reached by operations comes about in a history. -/
theorem Reached.history {allowed : Store → Prop} (h : Reached allowed s live) :
    ∃ discarded, History False s live discarded := by
  induction h with
  | empty number listensTo => exact ⟨[], .empty number listensTo⟩
  | newInteger lower upper name _ ih => exact ih.imp fun _ h => h.operated (.newInteger ..)
  | newSparse values name _ ih => exact ih.imp fun _ h => h.operated (.newSparse ..)
  | newBoolean name _ ih => exact ih.imp fun _ h => h.operated (.newBoolean ..)
  | extendDomain v lower upper _ ih => exact ih.imp fun _ h => h.operated (.extendDomain ..)
  | impose _ _ _ ih => exact ih.imp fun _ h => h.operated (.impose ..)
  | assign v value _ ih => exact ih.imp fun _ h => h.operated (.assign ..)
  | removeValue v value _ ih => exact ih.imp fun _ h => h.operated (.removeValue ..)
  | setLowerBound v bound _ ih => exact ih.imp fun _ h => h.operated (.setLowerBound ..)
  | setUpperBound v bound _ ih => exact ih.imp fun _ h => h.operated (.setUpperBound ..)
  | propagate _ ih => exact ih.imp fun _ h => h.operated (.propagate _)
  | snapshot _ _ ih => exact ih.imp fun _ h => h.snapshot
  | restore _ ih =>
      obtain ⟨discarded, h⟩ := ih
      exact ⟨_, h.restored⟩
  | search _ start session left _ ih =>
      exact ih.imp fun _ h => h.operated (.search start session left)

end Store

end ConstraintSolver
