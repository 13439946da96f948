import ConstraintSolver.Proofs.Enumeration
import ConstraintSolver.Proofs.Sanity

/-! # Completable stores — the completion check computes the recursive definition

    The completion check goes down and comes back on one store, with a bound
    on how deep it goes.  In a store in which nothing is left to do
    (`Drained`), it answers what the recursion on states says, and leaves the
    store unmoved (`Alike.hasCompletion`).  The two are carried out on
    stores that are alike: the check saves what it will restore, and the
    recursion does not.

    If no constraint is violated, this is whether the store has a solution
    (`AtFixpoint.completable_iff`), and what is enumerated are the solutions
    (`Healthy.mem_enumerate`). -/

namespace ConstraintSolver

open Constraint

namespace Store

variable {r s t u : Store}

/-! ## Drained stores -/

/-- Nothing is left to do in a store that has not failed. -/
structure Drained (s : Store) : Prop extends Tidy s where
  failure : s.failure = none
  idle : s.agenda.toList = []

/-- A tidy store is drained once it has been propagated. -/
theorem Tidy.drained (h : s.Tidy) (hok : s.propagate = (.ok (), t)) : t.Drained := by
  obtain ⟨htidy, hf, hidle⟩ := h.propagate_ok hok
  exact ⟨htidy, hf, hidle⟩

/-- A store that has not moved is still like one where nothing is left to do. -/
theorem Alike.unmoved (h : Alike r t) (hr : r.Drained) (hu : Unmoved t u) : Alike r u := by
  refine ⟨⟨hu.names.trans h.names, hu.constraints.trans h.constraints,
    hu.watchers.trans h.watchers, hu.domains ▸ h.shape⟩, hu.domains ▸ h.domains, ?_,
    hu.failure.trans h.failure⟩
  rcases hu.agenda with heq | hempty
  · rw [heq]
    exact h.agenda
  · rw [hempty]
    exact hr.agenda.same_empty hr.idle

/-- What has been tried on a store like this can be undone. -/
theorem Alike.restore (h : Alike r t) (hr : r.Drained) (hst : t.domains.Stamped)
    (hev : Evolves t.snapshot.2 u) :
    ∃ w, u.restoreOwned t.snapshot.1 = (.ok (), w) ∧ Unmoved t w ∧ Alike r w := by
  obtain ⟨w, hback, hunmoved⟩ := restore_unmoved hst (h.domains.changes.trans hr.quiet) hev
  exact ⟨w, hback, hunmoved, h.unmoved hr hunmoved⟩

/-! ## The same questions -/

theorem Alike.refl (s : Store) : Alike s s :=
  ⟨.refl s, ⟨.refl s.domains, rfl, rfl⟩, .refl s.agenda, rfl⟩

theorem Alike.domain (h : Alike s t) : t.domain = s.domain := h.domains.get

theorem Alike.undecidedVariables (h : Alike s t) :
    t.undecidedVariables = s.undecidedVariables := by
  rw [Store.undecidedVariables, Store.undecidedVariables, h.domain, h.constraints]

theorem Alike.tightest (h : Alike s t) : t.tightest = s.tightest := by
  rw [Store.tightest, Store.tightest, h.undecidedVariables, h.domain]

/-- **TRIALS** have the same outcome in stores that are alike. -/
theorem Alike.tryValue (h : Alike s t) {v : Variable} {value : Int} {held : Bool}
    (htry : s.tryValue v value = (held, u)) :
    ∃ w, t.tryValue v value = (held, w) ∧ (held = true → Alike u w) := by
  rw [Store.tryValue] at htry ⊢
  cases hassign : s.assign v value with
  | mk result s' =>
      obtain ⟨t', hassign', halike⟩ := h.assign hassign
      rw [hassign] at htry
      rw [hassign']
      cases result with
      | error e =>
          cases htry
          exact ⟨t', rfl, fun hheld => absurd hheld Bool.false_ne_true⟩
      | ok _ =>
          simp only at htry ⊢
          cases hprop : s'.propagate with
          | mk result s'' =>
              obtain ⟨t'', hprop', halike'⟩ := (halike rfl).propagate hprop
              rw [hprop] at htry
              rw [hprop']
              cases result with
              | error e =>
                  cases htry
                  exact ⟨t'', rfl, fun hheld => absurd hheld Bool.false_ne_true⟩
              | ok _ =>
                  cases htry
                  exact ⟨t'', rfl, fun _ => halike' rfl⟩

/-! ## The check -/

/-- The check computes the recursive definition on the store that the other one is
    like, and leaves the store unmoved. -/
def Computes (complete : Store → Except Misuse Bool × Store) (r t : Store) : Prop :=
  ∃ u, complete t = (.ok r.completable, u) ∧ Unmoved t u

variable {complete : Store → Except Misuse Bool × Store} {n : Nat}

/-- A trial of the check goes down to a store with fewer unfixed variables. -/
theorem Alike.trial
    (hcomplete : ∀ r t, Alike r t → r.Drained → t.domains.Stamped → r.unfixedCount < n →
      Computes complete r t)
    (h : Alike r t) (hr : r.Drained) (hst : t.domains.Stamped) {v : Variable} {value : Int}
    (hfree : (r.domain v).isFixed = false) (hn : r.unfixedCount ≤ n) :
    ∃ u, trial complete t.snapshot.2 v value = (.ok (r.admits v value), u) ∧
      Evolves t.snapshot.2 u := by
  have hev := evolves_tryValue t.snapshot.2 v value
  cases htry : r.tryValue v value with
  | mk held r' =>
      obtain ⟨t', htry', halike⟩ := h.snapshot.tryValue htry
      rw [htry'] at hev
      rw [Store.trial, htry', admits, htry]
      cases held with
      | false => exact ⟨t', rfl, hev⟩
      | true =>
          have htidy : r'.Drained := by
            obtain ⟨s, hassign, hprop⟩ := tryValue_cases htry
            have hs := hr.toTidy.assign v value
            rw [hassign] at hs
            exact hs.drained hprop
          have hlt := Nat.lt_of_lt_of_le (unfixedCount_tryValue htry hfree) hn
          have hst' : t'.domains.Stamped := hev.retraces.stamped hst.checkpoint
          obtain ⟨u, hu, hunmoved⟩ := hcomplete r' t' (halike rfl) htidy hst' hlt
          exact ⟨u, hu, hev.trans hunmoved.evolves⟩

/-- Over a store that is alike, trying one candidate after the other computes whether one of them
    is admitted. -/
theorem Alike.anyCandidate
    (hcomplete : ∀ r t, Alike r t → r.Drained → t.domains.Stamped → r.unfixedCount < n →
      Computes complete r t)
    (candidates : Domain) {t : Store} (h : Alike r t) (hr : r.Drained)
    (hst : t.domains.Stamped) {v : Variable} (hfree : (r.domain v).isFixed = false)
    (hn : r.unfixedCount ≤ n) :
    ∃ u, Store.anyCandidate complete v candidates t =
      (.ok (candidates.values.any (r.admits v)), u) ∧ Unmoved t u := by
  -- on the candidates that are left; the list of values loses its head each time
  induction candidates using Domain.candidates_induction generalizing t with
  | none candidates hmin =>
      rw [Domain.values_of_min?_none hmin]
      exact ⟨t, anyCandidate_none hmin, .refl t⟩
  | some candidates value hmin ih =>
      obtain ⟨u, htrial, hev⟩ := h.trial hcomplete hr hst hfree hn
      obtain ⟨w, hback, hunmoved, halike⟩ := h.restore hr hst hev
      rw [anyCandidate_some hmin htrial hback, Domain.values_of_min?_some hmin, List.any_cons]
      cases r.admits v value with
      | true => exact ⟨w, rfl, hunmoved⟩
      | false =>
          obtain ⟨u', hany, hunmoved'⟩ := ih halike (hunmoved.evolves.retraces.stamped hst)
          exact ⟨u', hany, hunmoved.trans hunmoved'⟩

/-- The check computes the recursive definition as long as it may go deep enough. -/
theorem Alike.completes (depth : Nat) (h : Alike r t) (hr : r.Drained)
    (hst : t.domains.Stamped) (hdepth : r.unfixedCount < depth) :
    Computes (Store.completes depth) r t := by
  induction depth generalizing r t with
  | zero => exact absurd hdepth (Nat.not_lt_zero _)
  | succ depth ih =>
      have htight : TieBreaker.best? .minimum t.undecidedVariables
          (fun v => (t.domain v).size) = r.tightest := h.tightest
      rw [Computes, Store.completes, htight]
      cases hv : r.tightest with
      | none =>
          rw [completable_of_none hv]
          exact ⟨t, rfl, .refl t⟩
      | some v =>
          rw [completable_of_some hv, h.domain]
          exact h.anyCandidate (fun r t h hr hst hlt => ih h hr hst hlt) (r.domain v) hr hst
            (isFixed_of_tightest hv) (Nat.lt_succ_iff.mp hdepth)

/-- **THE COMPLETION CHECK COMPUTES THE RECURSIVE DEFINITION.** -/
theorem Alike.hasCompletion (h : Alike r t) (hr : r.Drained) (hst : t.domains.Stamped) :
    ∃ u, t.hasCompletion = (.ok r.completable, u) ∧ Unmoved t u := by
  refine h.completes (t.variableCount + 1) hr hst (Nat.lt_succ_of_le ?_)
  rw [variableCount, h.shape.2]
  exact r.unfixedCount_le

/-! ## What the recursion lists -/

/-- A store at a fixpoint is drained. -/
theorem AtFixpoint.drained {Q : Criterion} (h : AtFixpoint Q s) : s.Drained :=
  ⟨⟨h.coherent.quiet, h.coherent.agenda⟩, h.failure, h.idle⟩

/-- At a fixpoint with no violated constraint, the unfixed variables can be completed
    if and only if there is a solution. -/
theorem AtFixpoint.completable_iff (h : AtFixpoint .unviolated s) :
    s.completable = true ↔ ∃ σ, s.SolvedBy σ := by
  obtain ⟨u, hcheck, _⟩ := (Alike.refl s).hasCompletion h.drained h.stamped
  obtain ⟨found, w, hcheck', _, hfound⟩ := h.hasCompletion
  rw [hcheck] at hcheck'
  cases hcheck'
  exact hfound

/-- Where the scope is fixed, every solution reads the same. -/
theorem SolvedBy.reading {scope : List Variable} {σ : Assignment} (h : s.SolvedBy σ)
    (hscope : ∀ v ∈ scope, v ∈ s.allVariables)
    (hfixed : ∀ v ∈ scope, (s.domain v).isFixed = true) :
    s.restriction scope σ = s.reading scope := by
  rw [Store.reading, restriction, restriction]
  refine congrArg Solution.mk (List.map_congr_left fun v hv => ?_)
  obtain ⟨x, hx⟩ := Option.isSome_iff_exists.mp (hfixed v hv)
  obtain ⟨hmem, honly⟩ := Domain.fixedValue?_eq_some.mp hx
  have hlowest := honly _ (Domain.lowerBound_mem ⟨x, hmem⟩)
  have hvalue := honly _ (h.1 v (hscope v hv))
  rw [hlowest, hvalue]

variable {choice : VariableChoice} {order : ValueOrder} {scope : List Variable}

/-- If what is listed for a value are the solutions with this value, then what is
    listed for all values of a variable are all solutions. -/
theorem mem_listed {v : Variable} (hv : v ∈ s.allVariables) {x : Solution}
    (hvalue : ∀ value ∈ s.domains.get v, ∃ u, s.assign v value = (.ok (), u) ∧
      (x ∈ u.enumerate choice order scope ↔
        ∃ σ, (s.SolvedBy σ ∧ σ v = value) ∧ x = s.restriction scope σ)) :
    x ∈ (order.list (s.domain v)).flatMap (s.enumerateWith choice order scope v) ↔
      ∃ σ, s.SolvedBy σ ∧ x = s.restriction scope σ := by
  rw [List.mem_flatMap]
  constructor
  · rintro ⟨value, hmem, hx⟩
    obtain ⟨u, hassign, hlists⟩ := hvalue value (ValueOrder.mem_list.mp hmem)
    rw [enumerateWith_of_assign hassign] at hx
    obtain ⟨σ, ⟨hσ, _⟩, hread⟩ := hlists.mp hx
    exact ⟨σ, hσ, hread⟩
  · rintro ⟨σ, hσ, hread⟩
    have hmem := hσ.1 v hv
    obtain ⟨u, hassign, hlists⟩ := hvalue (σ v) hmem
    refine ⟨σ v, ValueOrder.mem_list.mpr hmem, ?_⟩
    rw [enumerateWith_of_assign hassign]
    exact hlists.mpr ⟨σ, ⟨hσ, rfl⟩, hread⟩

/-- **THE ENUMERATION LISTS THE SOLUTIONS** of a store in which a constraint is not
    violated unless it waits. -/
theorem Healthy.mem_enumerate (h : Healthy .unviolated s)
    (hscope : ∀ v ∈ scope, v ∈ s.allVariables) {x : Solution} :
    x ∈ s.enumerate choice order scope ↔
      ∃ σ, s.SolvedBy σ ∧ x = s.restriction scope σ := by
  -- on the number of unfixed variables, as the enumeration itself
  induction hcount : s.unfixedCount using Nat.strongRecOn generalizing s with
  | ind count ih =>
      cases hprop : s.propagate with
      | mk result t =>
          cases result with
          | error why =>
              rw [enumerate_of_error hprop]
              refine ⟨fun hx => (List.not_mem_nil hx).elim, ?_⟩
              rintro ⟨σ, hσ, _⟩
              exact absurd hσ (h.propagate_error hprop σ)
          | ok _ =>
              obtain ⟨hfix, hev, hkept⟩ := h.propagate_ok hprop
              have hscope' : ∀ v ∈ scope, v ∈ t.allVariables := hev.allVariables ▸ hscope
              have howns : ∀ v ∈ scope, t.owns v = true := fun v hv =>
                owns_of_mem (hscope' v hv)
              simp only [← hkept, ← hev.toSameModel.restriction scope]
              rcases VariableChoice.choose_cases choice howns with
                ⟨hnone, hfixed⟩ | ⟨v, hv, hsome, hfree⟩
              · rw [enumerate_of_none hprop hnone, List.mem_ite_nil_right, List.mem_singleton,
                  hfix.completable_iff]
                constructor
                · rintro ⟨⟨σ, hσ⟩, rfl⟩
                  exact ⟨σ, hσ, (hσ.reading hscope' hfixed).symm⟩
                · rintro ⟨σ, hσ, rfl⟩
                  exact ⟨⟨σ, hσ⟩, hσ.reading hscope' hfixed⟩
              · rw [enumerate_of_some hprop hsome]
                refine mem_listed (hscope' v hv) fun value hmem => ?_
                obtain ⟨u, hassign, hu, hev', hget⟩ := hfix.toHealthy.assign (hscope' v hv) hmem
                have hlt := Nat.lt_of_lt_of_le (unfixedCount_assign hassign hfree)
                  (unfixedCount_propagate hprop)
                refine ⟨u, hassign, ?_⟩
                rw [ih _ (hcount ▸ hlt) hu (hev'.allVariables ▸ hscope') rfl]
                simp only [hev'.solvedBy_assigned (hscope' v hv) hmem hget,
                  hev'.toSameModel.restriction scope]

end Store

end ConstraintSolver
