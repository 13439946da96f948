import Mathlib.Data.Fintype.BigOperators
import ConstraintSolver.Proofs.Drafting
import ConstraintSolver.Proofs.Prefixes

/-! # Tuples — what a complete search reports

    A solution that is reported is the tuple of the values which the
    variables of the scope have in it.  A search for all solutions that is
    never stopped comes to its end, and by then it has reported every tuple
    that a solution of the store has there, each of them once
    (`Healthy.listsExactly`). -/

namespace ConstraintSolver

open Constraint Store Search

variable {ρ τ : Type} {policy : Policy ρ} {rule : TerminationRule τ}

namespace Search

/-- What is reported call by call is what the session has reported. -/
theorem Reports.session {begun s u : Search ρ τ} {reported xs : List Solution} {answer : Answer}
    {last : Except Misuse Answer} (h : Reports policy rule s xs last u) (hlast : last = .ok answer)
    (hsession : Session policy rule begun reported s) :
    Session policy rule begun (reported ++ xs) u := by
  induction h generalizing reported with
  | @found s t u x xs last next later ih =>
      have ht := ih hlast (hsession.next next)
      rwa [List.append_assoc] at ht
  | ends next nothing =>
      subst hlast
      have hu := hsession.next next
      -- the last answer is not a solution
      have hnone : answer.solutions = [] := by
        cases answer with
        | solution x => exact absurd rfl (nothing x)
        | finished => rfl
        | unsatisfiable => rfl
        | unknown => rfl
      rwa [hnone] at hu

/-- The tuples which a complete search has reported are those of the solutions. -/
theorem Exact.mem_values_iff {base : Store} {scope : List Variable} {reported : List Solution}
    (h : Exact base scope reported (some .complete)) (tuple : List Int) :
    tuple ∈ reported.map Solution.values ↔ ∃ σ, base.SolvedBy σ ∧ tuple = scope.map σ := by
  rw [List.mem_map]
  constructor
  · rintro ⟨x, hx, rfl⟩
    obtain ⟨σ, hσ, rfl⟩ := h.sound x hx
    exact ⟨σ, hσ, values_restriction ..⟩
  · rintro ⟨σ, hσ, rfl⟩
    exact ⟨_, h.complete rfl σ hσ, values_restriction ..⟩

end Search

/-- **EXACTLY THESE TUPLES** are listed: whichever of the built-in choices it makes, a
    search for all solutions that is never stopped is complete in the end, and has
    reported the tuples that are listed and no others, each of them once. -/
def Store.ListsExactly (s : Store) (scope : List Variable) (listed : List Int → Prop) : Prop :=
  ∀ (ρ τ : Type) [RandomSource ρ] (onVariable : VariableChoice) (onValue : ValueChoice)
    (rule : TerminationRule τ) (random : ρ) (termination : τ),
    RandomSource.DrawsBelow ρ → rule.NeverStops termination →
      ∃ (begun u : Search ρ τ) (reported : List Solution),
        start ⟨scope, true, none⟩ random termination s = .ok begun ∧
          Reports (.of onVariable onValue) rule begun reported
            (.ok (if reported = [] then .unsatisfiable else .finished)) u ∧
          u.control.status = some .complete ∧ (reported.map Solution.values).Nodup ∧
          ∀ tuple, tuple ∈ reported.map Solution.values ↔ listed tuple

namespace Store

variable {s : Store} {scope : List Variable}

theorem ListsExactly.congr {listed listed' : List Int → Prop} (h : s.ListsExactly scope listed)
    (hsame : ∀ tuple, listed tuple ↔ listed' tuple) : s.ListsExactly scope listed' :=
  (funext fun tuple => propext (hsame tuple) : listed = listed') ▸ h

/-- What is coherent to the strictest standard is coherent to the loosest. -/
theorem Healthy.loosened (h : Healthy .stable s) : Healthy .trivial s := by
  refine ⟨h.failure, ⟨h.inhabited, h.coherent.quiet, h.coherent.agenda, fun i c hc => ?_⟩, h.wired,
    h.numbered, h.propagable, h.stamped⟩
  exact (h.coherent.served i c hc).imp id (Or.imp id fun _ => True.intro)

/-- **A STORE LISTS ITS SOLUTIONS**, if constraints which do not wait are stable there. -/
theorem Healthy.listsExactly (h : Healthy .stable s) (hscope : ∀ v ∈ scope, v ∈ s.allVariables) :
    s.ListsExactly scope fun tuple => ∃ σ, s.SolvedBy σ ∧ tuple = scope.map σ := by
  intro ρ τ _ onVariable onValue rule random termination hrandom hnever
  let goal : SearchGoal := ⟨scope, true, none⟩
  let policy : Policy ρ := .of onVariable onValue
  have hsensible : policy.Sensible := Policy.sensible_of onVariable onValue
  have howns : ∀ v ∈ scope, s.owns v = true := fun v hv => owns_of_mem (hscope v hv)
  have htidy : s.Tidy := ⟨h.coherent.quiet, h.coherent.agenda⟩
  -- no rule is broken, so the search comes to its end
  obtain ⟨S, fault, htotals⟩ := exists_totals h.stamped htidy hsensible.unfixed scope random
  obtain rfl : fault = none := htotals.faultless h.stamped htidy
    (Policy.careful_of hrandom onVariable onValue) hsensible.unfixed howns
    fun _ v hv => h.inhabited v (hscope v hv)
  obtain ⟨begun, hstart, hbegun, hlaunched⟩ :=
    launched_of_start goal random termination h.stamped howns
  obtain ⟨last, u, hreports, _, hend, _⟩ :=
    hlaunched.unstopped_reports h.stamped htidy hsensible hbegun htotals hnever
  have hmore : ¬ goal.Enough S.length := fun ⟨_, hk, _⟩ => nomatch hk
  obtain ⟨rfl, hcomplete⟩ := hend hmore rfl
  -- what the session has reported is exact
  have hsession := hreports.session rfl .begun
  have hprepared : Prepared s goal :=
    ⟨⟨h.wired, h.numbered, hscope⟩, h.stamped, fun _ => h.loosened⟩
  have hexploring := hsession.exploring rfl
    (Policy.choosesCandidates_of hrandom onVariable onValue) hprepared hbegun h.not_overlooks
  have hexact := hexploring.exact h.failure
  rw [hcomplete] at hexact
  exact ⟨begun, u, S, hstart, hreports, hcomplete, hexact.once, hexact.mem_values_iff⟩

/-- **A STAGE LISTS THE SOLUTIONS** of the part of the plan that has been carried out. -/
theorem Stage.listsExactly {P : Plan} {k : Nat} {cs : List Constraint} (h : Stage P k cs s)
    (hscope : ∀ v ∈ scope, ∃ i < k, v = P.handle i) :
    s.ListsExactly scope fun tuple => ∃ σ, P.Solved k cs σ ∧ tuple = scope.map σ := by
  have hdeclared : ∀ v ∈ scope, v ∈ s.allVariables := fun v hv =>
    h.mem_allVariables_iff.mpr (hscope v hv)
  refine (h.fixpoint.toHealthy.listsExactly hdeclared).congr fun tuple => ?_
  exact exists_congr fun σ => and_congr_left fun _ => h.solved σ

end Store

/-! ## How many tuples there are -/

/-- There are as many tuples over some values as there are choices of one for every place. -/
theorem length_tuples {values : Finset Int} {n : Nat} {tuples : List (List Int)}
    (hnodup : tuples.Nodup)
    (hmem : ∀ tuple, tuple ∈ tuples ↔ tuple.length = n ∧ ∀ x ∈ tuple, x ∈ values) :
    tuples.length = values.card ^ n := by
  have himage :
      tuples.toFinset = (Fintype.piFinset fun _ : Fin n => values).image List.ofFn := by
    ext tuple
    rw [List.mem_toFinset, hmem, Finset.mem_image]
    constructor
    · rintro ⟨rfl, hvalues⟩
      exact ⟨tuple.get, Fintype.mem_piFinset.mpr fun i => hvalues _ (List.get_mem ..),
        List.ofFn_get tuple⟩
    · rintro ⟨f, hf, rfl⟩
      refine ⟨List.length_ofFn, fun x hx => ?_⟩
      obtain ⟨i, rfl⟩ := List.mem_ofFn.mp hx
      exact Fintype.mem_piFinset.mp hf i
  rw [← List.toFinset_card_of_nodup hnodup, himage,
    Finset.card_image_of_injective _ List.ofFn_injective, Fintype.card_piFinset_const]

end ConstraintSolver
