import ConstraintSolver.Proofs.Building
import ConstraintSolver.Proofs.Choices
import ConstraintSolver.Proofs.Trying

/-! # The completion check is exact and leaves no trace

    The check branches on a variable that an undecided constraint refers to,
    and tries its values by assigning and propagating.  At a fixpoint no
    constraint is known to be violated; so when nothing is left to branch on,
    every constraint is known to hold, and any values of the other variables
    complete a solution (`AtFixpoint.exists_solution`).  Every trial fixes a
    variable that was not fixed, and there are not more of them than the
    depth of the check allows (`unfixedCount_lt`).  By induction on this
    number, the check finds a completion exactly if the store has a solution
    (`AtFixpoint.hasCompletion`). -/

namespace ConstraintSolver

open Constraint

namespace Domain

theorem not_mem_of_min?_none {d : Domain} (h : d.min? = none) (x : Int) : x ∉ d := by
  rw [Domain.min?] at h
  rw [Option.map_eq_none_iff, List.head?_eq_none_iff] at h
  rw [Domain.mem_def, h]
  rintro ⟨i, hi, _⟩
  cases hi

/-- Candidates are tried from the smallest one up, until there are none. -/
theorem candidates_induction {motive : Domain → Prop}
    (none : ∀ d, d.min? = none → motive d)
    (some : ∀ d value, d.min? = some value → motive (d.prune (.except value)) → motive d)
    (d : Domain) : motive d := by
  induction hsize : d.size using Nat.strongRecOn generalizing d with
  | ind size ih =>
      cases hmin : d.min? with
      | none => exact none d hmin
      | some value =>
          have hlt : (d.prune (.except value)).size < size :=
            hsize ▸ size_except_lt (mem_of_min? hmin)
          exact some d value hmin (ih _ hlt _ rfl)

end Domain

namespace Store

variable {s t : Store}

/-! ## Undecided variables -/

/-- The undecided variables are the unfixed ones of undecided constraints. -/
theorem mem_undecidedVariables {v : Variable} :
    v ∈ s.undecidedVariables ↔
      (∃ c ∈ s.constraints.toList, entailment s.domain c = .unknown ∧ v ∈ c.occurrences) ∧
        (s.domain v).isFixed = false := by
  rw [undecidedVariables, mem_firsts, List.mem_filter, List.mem_flatMap, Bool.not_eq_true']
  refine and_congr_left fun _ => exists_congr fun c => ?_
  rw [mem_undecided, mem_scope, and_assoc]

/-- A constraint about fixed variables is decided. -/
theorem decided_of_fixed {F : Family} {c : Constraint}
    (h : ∀ v ∈ c.occurrences, (F v).isFixed = true) : entailment F c ≠ .unknown := by
  have hvalue : ∀ v ∈ c.occurrences, (F v).fixedValue? = some (F v).lowerBound := by
    intro v hv
    obtain ⟨x, hx⟩ := Option.isSome_iff_exists.mp (h v hv)
    rw [hx, (Domain.bounds_of_fixed hx).1]
  rw [entailment_of_fixed (σ := fun v => (F v).lowerBound) c hvalue]
  cases holds (fun v => (F v).lowerBound) c
  · exact fun h => nomatch h
  · exact fun h => nomatch h

/-- **NOTHING LEFT TO DECIDE**: every constraint is known to hold, whatever values
    the variables take. -/
theorem AtFixpoint.exists_solution (h : AtFixpoint .unviolated s)
    (hnone : s.undecidedVariables = []) : ∃ σ, s.SolvedBy σ := by
  have hdraw : Family.Draws s.domains.get s.allVariables fun v => (s.domains.get v).lowerBound :=
    fun v hv => Domain.lowerBound_mem (h.inhabited v hv)
  refine ⟨fun v => (s.domains.get v).lowerBound, hdraw, fun c hc => ?_⟩
  have hdrawc : Family.Draws s.domains.get c.occurrences fun v => (s.domains.get v).lowerBound :=
    fun v hv => hdraw v (h.wired.declared c hc v hv)
  refine holds_of_satisfied (F := s.domains.get) hdrawc (fun b hb => ?_) ?_
  · exact (h.propagable c hc).boolean b hb _ (hdrawc b (flags_subset_occurrences c b hb))
  · cases hverdict : entailment s.domains.get c with
    | satisfied => rfl
    | violated => exact absurd hverdict (h.not_violated hc)
    | unknown =>
        refine absurd hverdict (decided_of_fixed fun v hv => ?_)
        by_contra hfix
        have hmem : v ∈ s.undecidedVariables :=
          mem_undecidedVariables.mpr ⟨⟨c, hc, hverdict, hv⟩, Bool.not_eq_true _ ▸ hfix⟩
        rw [hnone] at hmem
        cases hmem

/-! ## Unfixed variables -/

/-- The number of variables with more than one value. -/
def unfixedCount (s : Store) : Nat := s.allVariables.countP fun v => !(s.domains.get v).isFixed

/-- There are not more unfixed variables than variables. -/
theorem unfixedCount_le (s : Store) : s.unfixedCount ≤ s.variableCount := by
  have hlength : s.allVariables.length = s.variableCount := by
    simp [allVariables, Domains.allVariables, variableCount]
  rw [← hlength]
  exact List.countP_le_length

/-- A fixed domain stays fixed while it has a value. -/
theorem isFixed_mono {d e : Domain} (hle : e ≤ d) (hne : ∃ x, x ∈ e) (h : d.isFixed = true) :
    e.isFixed = true := by
  obtain ⟨x, hx⟩ := Option.isSome_iff_exists.mp h
  exact Option.isSome_iff_exists.mpr ⟨x, Domain.fixedValue?_of_le hle hne hx⟩

theorem countP_lt {α : Type} {p q : α → Bool} {l : List α} (hle : ∀ a ∈ l, q a = true → p a = true)
    {a : α} (ha : a ∈ l) (hp : p a = true) (hq : q a = false) : l.countP q < l.countP p := by
  induction l with
  | nil => cases ha
  | cons b l ih =>
      have hle' := fun a ha => hle a (List.mem_cons_of_mem b ha)
      have hmono := List.countP_mono_left hle'
      rcases List.mem_cons.mp ha with rfl | ha
      · rw [List.countP_cons_of_neg (by simp [hq]), List.countP_cons_of_pos hp]
        omega
      · have := ih hle' ha
        rw [List.countP_cons, List.countP_cons]
        have hb := hle b List.mem_cons_self
        split <;> split
        · omega
        · exact absurd (hb ‹_›) ‹_›
        · omega
        · omega

/-- One variable more is fixed, if no domain of a fixed variable has become empty. -/
theorem unfixedCount_lt (hev : Evolves s t)
    (hkeep : ∀ v ∈ s.allVariables, (s.domains.get v).isFixed = true → ∃ x, x ∈ t.domains.get v)
    {v : Variable} (hv : v ∈ s.allVariables) (hfree : (s.domains.get v).isFixed = false)
    (hfix : (t.domains.get v).isFixed = true) : t.unfixedCount < s.unfixedCount := by
  rw [unfixedCount, hev.allVariables]
  refine countP_lt (fun w hw hfree' => ?_) hv (by simp [hfree]) (by simp [hfix])
  rw [Bool.not_eq_true'] at hfree' ⊢
  rw [← Bool.not_eq_true] at hfree' ⊢
  exact fun h => hfree' (isFixed_mono (hev.shrinks w) (hkeep w hw h) h)

/-! ## Trials -/

/-- The check has an outcome, leaves the store unmoved, and answers whether there
    is a solution. -/
def Decides (complete : Store → Except Misuse Bool × Store) (s : Store) : Prop :=
  ∃ found t, complete s = (.ok found, t) ∧ Unmoved s t ∧ (found = true ↔ ∃ σ, s.SolvedBy σ)

/-- Tries a value: assigns it, propagates, and goes on with the check. -/
def trial (complete : Store → Except Misuse Bool × Store) (s : Store) (v : Variable)
    (value : Int) : Except Misuse Bool × Store :=
  match s.tryValue v value with
  | (true, t) => complete t
  | (false, t) => (.ok false, t)

/-- A value that can be assigned is accepted if propagation succeeds then. -/
theorem tryValue_of_assign {v : Variable} {value : Int} (h : s.assign v value = (.ok (), t)) :
    s.tryValue v value =
      match t.propagate with
      | (.error _, u) => (false, u)
      | (.ok (), u) => (true, u) := by
  cases hprop : t.propagate with
  | mk result u =>
      cases result with
      | ok _ => simp only [tryValue, h, hprop]
      | error why => simp only [tryValue, h, hprop]

/-- The value is tried, and whatever comes of it can be undone. -/
theorem AtFixpoint.trial {complete : Store → Except Misuse Bool × Store} {n : Nat}
    (hcomplete : ∀ t, AtFixpoint .unviolated t → t.unfixedCount < n → Decides complete t)
    (hs : AtFixpoint .unviolated s) {v : Variable} (hv : v ∈ s.allVariables)
    (hfree : (s.domains.get v).isFixed = false) (hn : s.unfixedCount ≤ n) {value : Int}
    (hmem : value ∈ s.domains.get v) :
    ∃ found t, Store.trial complete s.snapshot.2 v value = (.ok found, t) ∧
      Evolves s.snapshot.2 t ∧ (found = true ↔ ∃ σ, s.SolvedBy σ ∧ σ v = value) := by
  have hsnap := hs.toHealthy.snapshot
  obtain ⟨t, hassign, ht, hev, hget⟩ := hsnap.assign hv hmem
  have hsolved : ∀ σ, t.SolvedBy σ ↔ s.SolvedBy σ ∧ σ v = value :=
    hev.solvedBy_assigned hv hmem hget
  rw [Store.trial, tryValue_of_assign hassign]
  have hevprop := evolves_propagate t
  cases hprop : t.propagate with
  | mk result u =>
      rw [hprop] at hevprop
      cases result with
      | error why =>
          refine ⟨false, u, rfl, hev.trans hevprop, ?_⟩
          refine iff_of_false Bool.false_ne_true ?_
          rintro ⟨σ, hσ⟩
          exact ht.propagate_error hprop σ ((hsolved σ).mpr hσ)
      | ok _ =>
          obtain ⟨hu, _, hkept⟩ := ht.propagate_ok hprop
          -- the variable was free and is fixed now, so fewer are left for the rest of the check
          have hlt : u.unfixedCount < s.snapshot.2.unfixedCount := by
            have hin : Family.Inhabited u.domains.get s.snapshot.2.allVariables := by
              rw [← (hev.trans hevprop).allVariables]
              exact hu.inhabited
            refine unfixedCount_lt (hev.trans hevprop) (fun w hw _ => hin w hw) hv hfree ?_
            refine isFixed_mono (hevprop.shrinks v) (hin v hv) ?_
            rw [hget, Family.narrowed, if_pos rfl]
            refine Option.isSome_iff_exists.mpr ⟨value, ?_⟩
            exact Domain.fixedValue?_eq_some.mpr
              ⟨(mem_prune_exactly hmem).mpr rfl, fun x hx => (mem_prune_exactly hmem).mp hx⟩
          obtain ⟨found, w, hw, hunmoved, hfound⟩ := hcomplete u hu (Nat.lt_of_lt_of_le hlt hn)
          refine ⟨found, w, hw, (hev.trans hevprop).trans hunmoved.evolves, hfound.trans ?_⟩
          exact exists_congr fun σ => (hkept σ).trans (hsolved σ)

/-! ## The check -/

theorem anyCandidate_none {complete : Store → Except Misuse Bool × Store} {v : Variable}
    {candidates : Domain} (h : candidates.min? = none) :
    anyCandidate complete v candidates s = (.ok false, s) := by
  rw [anyCandidate]
  split
  · rfl
  · rename_i heq
    rw [h] at heq
    cases heq

/-- The least candidate decides if it can be completed; else the others are tried without it. -/
theorem anyCandidate_some {complete : Store → Except Misuse Bool × Store} {v : Variable}
    {candidates : Domain} {value : Int} (h : candidates.min? = some value) {found : Bool}
    (htrial : trial complete s.snapshot.2 v value = (.ok found, t)) {u : Store}
    (hback : t.restoreOwned s.snapshot.1 = (.ok (), u)) :
    anyCandidate complete v candidates s =
      if found then (.ok true, u)
      else anyCandidate complete v (candidates.prune (.except value)) u := by
  rw [anyCandidate]
  split
  · rename_i heq
    rw [h] at heq
    cases heq
  · rename_i x heq
    obtain rfl : value = x := Option.some.inj (h.symm.trans heq)
    rw [trial] at htrial
    cases htry : s.snapshot.2.tryValue v value with
    | mk held t' =>
        rw [htry] at htrial
        cases held with
        | true => simp only [htry, htrial, hback]
        | false => simp only [htry, htrial, hback]

/-- Some candidate is part of a solution, or none is: the trials do not miss
    one. -/
theorem AtFixpoint.anyCandidate {complete : Store → Except Misuse Bool × Store} {n : Nat}
    (hcomplete : ∀ t, AtFixpoint .unviolated t → t.unfixedCount < n → Decides complete t)
    {v : Variable} (candidates : Domain) {s : Store} (hs : AtFixpoint .unviolated s)
    (hv : v ∈ s.allVariables) (hfree : (s.domains.get v).isFixed = false)
    (hn : s.unfixedCount ≤ n) (hle : candidates ≤ s.domains.get v) :
    ∃ found t, Store.anyCandidate complete v candidates s = (.ok found, t) ∧ Unmoved s t ∧
      (found = true ↔ ∃ σ, s.SolvedBy σ ∧ σ v ∈ candidates) := by
  -- on the candidates that are left; each trial is undone before the next
  induction candidates using Domain.candidates_induction generalizing s with
  | none candidates hmin =>
      refine ⟨false, s, anyCandidate_none hmin, .refl s, ?_⟩
      refine iff_of_false Bool.false_ne_true ?_
      rintro ⟨σ, _, hσ⟩
      exact Domain.not_mem_of_min?_none hmin _ hσ
  | some candidates value hmin ih =>
      have hmem := Domain.mem_of_min? hmin
      obtain ⟨found, t, htrial, hev, hfound⟩ :=
        hs.trial hcomplete hv hfree hn (hle value hmem)
      obtain ⟨u, hback, hunmoved⟩ := hs.restore hev
      rw [anyCandidate_some hmin htrial hback]
      cases found with
      | true =>
          obtain ⟨σ, hσ, hvalue⟩ := hfound.mp rfl
          exact ⟨true, u, rfl, hunmoved, iff_of_true rfl ⟨σ, hσ, hvalue ▸ hmem⟩⟩
      | false =>
          have hunfixed : u.unfixedCount = s.unfixedCount := by
            rw [unfixedCount, unfixedCount, hunmoved.evolves.allVariables, hunmoved.domains]
          obtain ⟨found', w, hw, hunmoved', hfound'⟩ :=
            ih (hunmoved.atFixpoint hs) (by rwa [hunmoved.evolves.allVariables])
              (by rwa [hunmoved.domains]) (by rwa [hunfixed])
              (by rw [hunmoved.domains]; exact (candidates.prune_le _).trans hle)
          refine ⟨found', w, hw, hunmoved.trans hunmoved', hfound'.trans ?_⟩
          -- the value that has failed is part of no solution, so nothing is lost without it
          refine exists_congr fun σ => ?_
          rw [hunmoved.solvedBy_iff, Domain.mem_prune]
          refine and_congr_right fun hσ => ⟨And.left, fun hcand => ⟨hcand, fun hvalue => ?_⟩⟩
          exact absurd (hfound.mpr ⟨σ, hσ, hvalue⟩) Bool.false_ne_true

/-- The check is exact as long as it may go deep enough. -/
theorem AtFixpoint.completes (depth : Nat) (hs : AtFixpoint .unviolated s)
    (hdepth : s.unfixedCount < depth) : Decides (Store.completes depth) s := by
  -- every level fixes a variable, so the depth does not run out
  induction depth generalizing s with
  | zero => exact absurd hdepth (Nat.not_lt_zero _)
  | succ depth ih =>
      rw [Decides, Store.completes]
      rcases TieBreaker.best?_cases .minimum s.undecidedVariables fun v => (s.domain v).size with
        ⟨hnil, hbest⟩ | ⟨v, hv, hbest⟩
      · rw [hbest]
        exact ⟨true, s, rfl, .refl s, iff_of_true rfl (hs.exists_solution hnil)⟩
      · rw [hbest]
        obtain ⟨⟨c, hc, _, hvc⟩, hfree⟩ := mem_undecidedVariables.mp hv
        have hvs := hs.wired.declared c hc v hvc
        obtain ⟨found, t, hany, hunmoved, hfound⟩ :=
          AtFixpoint.anyCandidate (fun t ht hlt => ih ht hlt) (s.domain v) hs hvs hfree
            (Nat.lt_succ_iff.mp hdepth) (le_refl _)
        refine ⟨found, t, hany, hunmoved, hfound.trans (exists_congr fun σ => ?_)⟩
        exact and_iff_left_of_imp fun hσ => hσ.1 v hvs

/-- **THE COMPLETION CHECK IS EXACT**: at a fixpoint it answers whether the store has
    a solution, and leaves the store unmoved. -/
theorem AtFixpoint.hasCompletion (hs : AtFixpoint .unviolated s) :
    ∃ found t, s.hasCompletion = (.ok found, t) ∧ Unmoved s t ∧
      (found = true ↔ ∃ σ, s.SolvedBy σ) :=
  hs.completes (s.variableCount + 1) (Nat.lt_succ_of_le s.unfixedCount_le)

/-! ## Anywhere -/

/-- Whatever state the store is in, the check has an outcome and does not change
    what the store can be taken back to. -/
def Undoes (complete : Store → Except Misuse Bool × Store) : Prop :=
  ∀ s, s.domains.Stamped →
    ∃ found t, complete s = (.ok found, t) ∧ Evolves s t ∧ t.failure = s.failure

/-- Trying a value removes values, and everything before can be returned to. -/
theorem evolves_tryValue (s : Store) (v : Variable) (value : Int) :
    Evolves s (s.tryValue v value).2 := by
  have hassign := evolves_assign s v value
  rw [tryValue]
  cases hres : s.assign v value with
  | mk result t =>
      rw [hres] at hassign
      cases result with
      | error e => exact hassign
      | ok _ =>
          have hprop := evolves_propagate t
          cases hres' : t.propagate with
          | mk result u =>
              rw [hres'] at hprop
              simp only [hres']
              cases result with
              | error e => exact hassign.trans hprop
              | ok _ => exact hassign.trans hprop

/-- A trial that is undone leaves the store as it was, apart from what is told. -/
theorem trial_evolves {complete : Store → Except Misuse Bool × Store} (h : Undoes complete)
    (hst : s.domains.Stamped) (v : Variable) (value : Int) :
    ∃ found t, trial complete s v value = (.ok found, t) ∧ Evolves s t := by
  have hev := evolves_tryValue s v value
  rw [trial]
  cases htry : s.tryValue v value with
  | mk held t =>
      rw [htry] at hev
      cases held with
      | true =>
          obtain ⟨found, u, hu, hev', _⟩ := h t (hev.retraces.stamped hst)
          exact ⟨found, u, hu, hev.trans hev'⟩
      | false => exact ⟨false, t, rfl, hev⟩

/-- Trying candidates undoes what it does, if completing does. -/
theorem undoes_anyCandidate {complete : Store → Except Misuse Bool × Store} (h : Undoes complete)
    (v : Variable) (candidates : Domain) : Undoes (Store.anyCandidate complete v candidates) := by
  induction candidates using Domain.candidates_induction with
  | none candidates hmin => exact fun s _ => ⟨false, s, anyCandidate_none hmin, .refl s, rfl⟩
  | some candidates value hmin ih =>
      intro s hst
      obtain ⟨found, t, htrial, hev⟩ :=
        trial_evolves h (s := s.snapshot.2) hst.checkpoint v value
      -- whatever the trial has done, its snapshot is restored before the next one
      have hback := restore_of_evolves hst hev
      rw [anyCandidate_some hmin htrial hback]
      have hundone : Evolves s
          { t with domains := s.domains.settled, agenda := .empty, failure := s.failure } :=
        ⟨⟨hev.names, hev.constraints, hev.watchers, .refl _⟩, Domains.retraces_settled _,
          le_refl s.domains.get⟩
      cases found with
      | true => exact ⟨true, _, rfl, hundone, rfl⟩
      | false =>
          obtain ⟨found', u, hu, hev', hf⟩ := ih
            { t with domains := s.domains.settled, agenda := .empty, failure := s.failure } hst
          exact ⟨found', u, hu, hundone.trans hev', hf⟩

/-- Looking for a completion undoes what it does. -/
theorem undoes_completes (depth : Nat) : Undoes (Store.completes depth) := by
  induction depth with
  | zero => exact fun s _ => ⟨false, s, rfl, .refl s, rfl⟩
  | succ depth ih =>
      intro s hst
      rw [Store.completes]
      split
      · exact ⟨true, s, rfl, .refl s, rfl⟩
      · exact undoes_anyCandidate ih _ _ s hst

/-- **THE COMPLETION CHECK LEAVES NO TRACE** in what can be restored. -/
theorem undoes_hasCompletion : Undoes Store.hasCompletion :=
  fun s hst => undoes_completes (s.variableCount + 1) s hst

end Store

end ConstraintSolver
