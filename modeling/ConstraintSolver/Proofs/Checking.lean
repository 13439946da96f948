import ConstraintSolver.Proofs.Arising
import ConstraintSolver.Proofs.Refinement

/-! # Checking — the completion check in every store

    The check is a recursion which the model cuts off at a depth.  It never
    gets there: each level fixes a variable, so any depth beyond the number
    of unfixed variables gives the same outcome (`completes_eq`).

    In a store that has not failed, in which nothing waits and every
    constraint is stable, the check answers whether there is a solution, and
    leaves no trace (`completion_check_is_exact`).  There is one exception:
    the check only looks at undecided constraints, so it does not see that a
    variable without constraints has no values.  A store that has not failed
    has values for all variables as long as discarded snapshots are left
    alone; after one has been restored it may not. -/

namespace ConstraintSolver

open Constraint

namespace Store

variable {s t : Store} {complete complete' : Store → Except Misuse Bool × Store} {n : Nat}

/-! ## The depth of the check -/

/-- A trial only depends on what comes of the stores below, which have fewer unfixed
    variables. -/
theorem trial_congr
    (hsame : ∀ t, t.domains.Stamped → t.unfixedCount < n → complete t = complete' t)
    (hst : s.domains.Stamped) {v : Variable} (hfree : (s.domain v).isFixed = false)
    (hn : s.unfixedCount ≤ n) (value : Int) :
    trial complete s v value = trial complete' s v value := by
  have hev := evolves_tryValue s v value
  rw [trial, trial]
  cases htry : s.tryValue v value with
  | mk held t =>
      rw [htry] at hev
      cases held with
      | false => rfl
      | true =>
          exact hsame t (hev.retraces.stamped hst)
            (Nat.lt_of_lt_of_le (unfixedCount_tryValue htry hfree) hn)

theorem anyCandidate_congr (hundoes : Undoes complete)
    (hsame : ∀ t, t.domains.Stamped → t.unfixedCount < n → complete t = complete' t)
    (candidates : Domain) (hst : s.domains.Stamped) {v : Variable}
    (hfree : (s.domain v).isFixed = false) (hn : s.unfixedCount ≤ n) :
    anyCandidate complete v candidates s = anyCandidate complete' v candidates s := by
  -- on the candidates that are left; going back leaves as many variables unfixed
  induction candidates using Domain.candidates_induction generalizing s with
  | none candidates hmin => rw [anyCandidate_none hmin, anyCandidate_none hmin]
  | some candidates value hmin ih =>
      have hst' : s.snapshot.2.domains.Stamped := hst.checkpoint
      obtain ⟨found, t, htrial, hev⟩ := trial_evolves hundoes hst' v value
      have hcongr := trial_congr (s := s.snapshot.2) hsame hst' hfree hn value
      have hback := restore_of_evolves hst hev
      rw [anyCandidate_some hmin htrial hback, anyCandidate_some hmin (hcongr ▸ htrial) hback]
      cases found with
      | true => rfl
      | false =>
          have hcount : ({ t with
              domains := s.domains.settled
              agenda := .empty
              failure := s.failure } : Store).unfixedCount = s.unfixedCount := rfl
          exact ih hst hfree (hcount ▸ hn)

/-- **THE DEPTH DOES NOT RUN OUT**: beyond the number of unfixed variables it makes no
    difference. -/
theorem completes_eq {depth depth' : Nat} (hst : s.domains.Stamped)
    (hdepth : s.unfixedCount < depth) (hdepth' : s.unfixedCount < depth') :
    s.completes depth = s.completes depth' := by
  induction depth generalizing s depth' with
  | zero => exact absurd hdepth (Nat.not_lt_zero _)
  | succ depth ih =>
      obtain ⟨depth', rfl⟩ := Nat.exists_eq_succ_of_ne_zero (Nat.ne_zero_of_lt hdepth')
      rw [completes, completes]
      split
      · rfl
      · rename_i v hv
        refine anyCandidate_congr (n := min depth depth') (undoes_completes depth)
          (fun t ht hlt => ih ht ?_ ?_) (s.domain v) hst (isFixed_of_tightest hv) ?_
        all_goals omega

/-! ## The check in stores that arise -/

/-- A store in order is at a fixpoint if nothing waits, all constraints are stable and
    all variables have values. -/
theorem Kempt.atFixpoint (h : s.Kempt) (hf : s.failure = none) (hidle : s.agenda.toList = [])
    (hsettled : s.Settled) (hregular : s.Regular)
    (hvalues : ∀ v ∈ s.allVariables, ∃ x, x ∈ s.domain v) : AtFixpoint .unviolated s := by
  have hsuits : s.Propagable := fun c hc =>
    ⟨fun v hv => hvalues v (h.wired.declared c hc v hv), hregular.boolean c hc,
      hregular.negatable c hc⟩
  refine ⟨⟨hf, ⟨hvalues, h.quiet, h.agenda, fun i c hc => ?_⟩, h.wired, h.numbered, hsuits,
    h.stamped⟩, hidle⟩
  exact Or.inr (Or.inr
    (Criterion.unviolated.of_stable c s.domains (hsettled c (mem_constraints hc))))

/-- In a store that has not failed, all variables have values, if discarded snapshots
    have been left alone. -/
theorem Observed.inhabited {allowed : Store → Prop} (h : Observed allowed s)
    (hf : s.failure = none) : ∀ v ∈ s.allVariables, ∃ x, x ∈ s.domain v := by
  obtain ⟨live, hsound⟩ := h.sound (keeps_trivial allowed)
  exact (hsound.coherent hf).inhabited

/-- **THE CHECK IS EXACT** up to variables without values, and leaves no trace. -/
theorem completion_check_is_exact (harises : Arises s) (hf : s.failure = none)
    (hidle : s.agenda.isEmpty = true) (hsettled : s.Settled) (hregular : s.Regular) :
    ∃ found t, s.hasCompletion = (.ok found, t) ∧
      (∀ depth, s.variableCount < depth → s.completes depth = (.ok found, t)) ∧
      ((found = true ∧ ∀ v ∈ s.allVariables, ∃ x, x ∈ s.domain v) ↔ ∃ σ, s.SolvedBy σ) ∧
      (Observed (fun _ => True) s → (found = true ↔ ∃ σ, s.SolvedBy σ)) ∧
      t.domains = s.domains ∧ t.failure = none ∧ t.depth = s.depth ∧
      t.agenda.isEmpty = true := by
  have hkempt := harises.kempt
  have hempty : s.agenda.toList = [] := s.agenda.isEmpty_iff.mp hidle
  have hdrained : s.Drained := ⟨hkempt.toTidy, hf, hempty⟩
  obtain ⟨t, hcheck, hunmoved⟩ := (Alike.refl s).hasCompletion hdrained hkempt.stamped
  -- where every variable has a value, the store is at a fixpoint, and the check tells what it
  -- must
  have hexact : (∀ v ∈ s.allVariables, ∃ x, x ∈ s.domain v) →
      (s.completable = true ↔ ∃ σ, s.SolvedBy σ) := fun hvalues =>
    (hkempt.atFixpoint hf hempty hsettled hregular hvalues).completable_iff
  refine ⟨s.completable, t, hcheck, fun depth hdepth => ?_, ?_, fun hseen => ?_,
    hunmoved.domains, hunmoved.failure.trans hf, congrArg Domains.depth hunmoved.domains, ?_⟩
  · have hle := s.unfixedCount_le
    rw [← hcheck]
    exact completes_eq hkempt.stamped (by omega) (by omega)
  · constructor
    · rintro ⟨hfound, hvalues⟩
      exact (hexact hvalues).mp hfound
    · rintro ⟨σ, hσ⟩
      have hvalues : ∀ v ∈ s.allVariables, ∃ x, x ∈ s.domain v := fun v hv => ⟨σ v, hσ.1 v hv⟩
      exact ⟨(hexact hvalues).mpr ⟨σ, hσ⟩, hvalues⟩
  · exact hexact (hseen.inhabited hf)
  · rcases hunmoved.agenda with heq | heq
    · rw [heq]
      exact hidle
    · rw [heq]
      exact (Agenda.isEmpty_iff _).mpr Agenda.toList_empty

open Search (bit emptiedBit)

/-- Two of three variables with two values each are different, whichever they are. -/
def crowdedTriple : Store :=
  let s := ((((Store.empty 0 none).newInteger 0 1 none).2.newInteger 0 1 none).2.newInteger 0 1
    none).2
  (((s.impose (.equality ⟨0, 0⟩ .notEqual (.variable ⟨0, 1⟩))).2.impose
    (.equality ⟨0, 0⟩ .notEqual (.variable ⟨0, 2⟩))).2.impose
    (.equality ⟨0, 1⟩ .notEqual (.variable ⟨0, 2⟩))).2

/-- The triple comes about with whatever is allowed at a snapshot. -/
theorem reached_crowdedTriple (allowed : Store → Prop) : Reached allowed crowdedTriple [] :=
  .impose (by decide +kernel) (by decide +kernel)
    (.impose (by decide +kernel) (by decide +kernel)
      (.impose (by decide +kernel) (by decide +kernel)
        (.newInteger 0 1 none (.newInteger 0 1 none (.newInteger 0 1 none (.empty 0 none))))))

/-- The emptied variable arises from public calls. -/
theorem arises_emptiedBit : Arises emptiedBit := by
  have hbit : Arises bit :=
    .operated (s := .empty 0 none) rfl (.empty 0 none) (.newInteger _ 0 1 none)
  have hagain := (hbit.snapshot.snapshot.restored bit.snapshot.1).snapshot
  have hfailed := Arises.operated (evolves_prune _ ⟨0, 0⟩ (.atLeast 5)).constraints hagain
    (.setLowerBound _ ⟨0, 0⟩ 5)
  exact hfailed.snapshot.restored bit.snapshot.2.snapshot.1

/-- The check is right about three variables with two values, and wrong about a variable without
    values whose failure was forgotten. -/
theorem completion_check_in_crowdedTriple_and_emptiedBit :
    ((∃ t, crowdedTriple.hasCompletion = (.ok false, t) ∧ t.domains = crowdedTriple.domains ∧
        t.agenda.isEmpty = true) ∧ ¬ ∃ σ, crowdedTriple.SolvedBy σ) ∧
      (∃ t, emptiedBit.hasCompletion = (.ok true, t) ∧ t.domains = emptiedBit.domains ∧
        t.agenda.isEmpty = true) ∧ ¬ ∃ σ, emptiedBit.SolvedBy σ := by
  constructor
  · have hsound := (reached_crowdedTriple _).sound (keeps_of_idle .stable)
    have hsettled : crowdedTriple.Settled :=
      ((hsound.coherent (by decide +kernel)).resting (by decide +kernel)).met
    obtain ⟨found, t, hcheck, _, _, hexact, hdomains, _, _, hidle⟩ := completion_check_is_exact
      (reached_crowdedTriple fun _ => True).arises (by decide +kernel) (by decide +kernel) hsettled
      (by decide +kernel)
    have hfound : crowdedTriple.hasCompletion.1 = .ok false := by decide +kernel
    rw [hcheck] at hfound
    cases hfound
    refine ⟨⟨t, hcheck, hdomains, hidle⟩, fun hsolved => ?_⟩
    cases (hexact (.reached (reached_crowdedTriple _))).mpr hsolved
  · have hnone : emptiedBit.constraints.toList = [] := by decide +kernel
    obtain ⟨found, t, hcheck, _, hexact, _, hdomains, _, _, hidle⟩ := completion_check_is_exact
      arises_emptiedBit (by decide +kernel) (by decide +kernel)
      (fun c hc => nomatch hnone ▸ hc) (by decide +kernel)
    have hfound : emptiedBit.hasCompletion.1 = .ok true := by decide +kernel
    rw [hcheck] at hfound
    cases hfound
    refine ⟨⟨t, hcheck, hdomains, hidle⟩, fun hsolved => ?_⟩
    obtain ⟨x, hx⟩ := (hexact.mpr hsolved).2 ⟨0, 0⟩ (by decide +kernel)
    exact Domain.isEmpty_iff.mp (by decide +kernel) x hx

end Store

end ConstraintSolver
