import ConstraintSolver.Proofs.Exactness
import ConstraintSolver.Proofs.Listing

/-! # Refinement — the search is the enumeration, one solution at a time

    Asked for solutions one after the other, a search answers with what is
    enumerated, in the same order; after that it says every time that there
    are no more (`Yields`).  So it makes no difference when it is asked, and
    how often (`search_yields_enumeration`).

    A search never takes more steps than it was given when it was begun
    (`stepsBelow_lt_stepBound`), so it is never cut short. -/

namespace ConstraintSolver

open Constraint Store

namespace Search

variable {ρ τ : Type} {policy : Policy ρ} {rule : TerminationRule τ} {s t u : Search ρ τ}
  {xs : List Solution} {m n : Nat}

/-! ## Answers -/

/-- **ASKED AGAIN AND AGAIN**, the search answers with these solutions, one after the
    other, and then with this last answer each time. -/
inductive Yields (policy : Policy ρ) (rule : TerminationRule τ) (last : Answer) :
    Search ρ τ → List Solution → Prop
  | found {s t : Search ρ τ} {x : Solution} {xs : List Solution}
      (next : s.next policy rule = (.ok (.solution x), t))
      (later : Yields policy rule last t xs) : Yields policy rule last s (x :: xs)
  | over {s t : Search ρ τ} (next : s.next policy rule = (.ok last, t))
      (later : t.next policy rule = (.ok last, t)) : Yields policy rule last s []

/-- A search that is over gives its last answer again, however long it may run. -/
theorem run_exhausted (hphase : s.control.phase = .exhausted) (steps : Nat) :
    Search.run policy rule steps s = (.ok s.control.finalAnswer, s) := by
  cases steps with
  | zero => rfl
  | succ steps => rw [Search.run, if_pos hphase]

/-- A run ends at the first solution, or when the search is over. -/
theorem Runs.answer (h : Runs policy rule n s xs u) (hover : u.control.phase = .exhausted)
    (hle : n ≤ m) :
    (xs = [] ∧ Search.run policy rule m s = (.ok u.control.finalAnswer, u)) ∨
      ∃ x rest t k, xs = x :: rest ∧ Search.run policy rule m s = (.ok (.solution x), t) ∧
        k ≤ n ∧ Runs policy rule k t rest u ∧ t.control.patience = s.control.patience := by
  induction h generalizing m with
  | zero s => exact Or.inl ⟨rfl, run_exhausted hover m⟩
  | @step n s t u found xs going taken patience later ih =>
      obtain ⟨m, rfl⟩ := Nat.exists_eq_succ_of_ne_zero (Nat.ne_zero_of_lt hle)
      have hle' : n ≤ m := Nat.le_of_succ_le_succ hle
      rw [Search.run, if_neg going, taken]
      cases found with
      | some x => exact Or.inr ⟨x, xs, t, n, rfl, rfl, Nat.le_succ n, later, patience⟩
      | none =>
          rcases ih hover hle' with ⟨hnil, hrun⟩ | ⟨x, rest, t', k, hcons, hrun, hk, hrest, hp⟩
          · exact Or.inl ⟨hnil, hrun⟩
          · exact Or.inr ⟨x, rest, t', k, hcons, hrun, Nat.le_succ_of_le hk, hrest,
              hp.trans patience⟩

/-- A run to the end, cut into answers. -/
theorem Runs.yields (h : Runs policy rule n s xs u) (hover : u.control.phase = .exhausted)
    (hle : n ≤ s.control.patience) : Yields policy rule u.control.finalAnswer s xs := by
  induction xs generalizing s n with
  | nil =>
      rcases h.answer hover hle with ⟨_, hrun⟩ | ⟨x, rest, _, _, hcons, _⟩
      · exact .over hrun (run_exhausted hover _)
      · cases hcons
  | cons x xs ih =>
      rcases h.answer hover hle with ⟨hnil, _⟩ | ⟨y, rest, t, k, hcons, hrun, hk, hrest, hpatience⟩
      · cases hnil
      · cases hcons
        exact .found hrun (ih hrest (hpatience ▸ Nat.le_trans hk hle))

/-! ## The bound on the steps -/

theorem stepsBelow_le (d k : Nat) : stepsBelow d k + 4 ≤ Nat.pow (d + 8) (k + 1) := by
  induction k with
  | zero =>
      change 0 + 4 ≤ 1 * (d + 8)
      omega
  | succ k ih =>
      have hself : d + 8 ≤ Nat.pow (d + 8) (k + 1) := Nat.le_self_pow k.succ_ne_zero (d + 8)
      calc stepsBelow d (k + 1) + 4 = d * (2 + stepsBelow d k) + 6 := by
            rw [stepsBelow]
            omega
        _ ≤ d * Nat.pow (d + 8) (k + 1) + 8 * Nat.pow (d + 8) (k + 1) := by
            refine Nat.add_le_add (Nat.mul_le_mul_left d ?_) ?_ <;> omega
        _ = (d + 8) * Nat.pow (d + 8) (k + 1) := (Nat.add_mul d 8 _).symm
        _ = Nat.pow (d + 8) (k + 1 + 1) := Nat.mul_comm _ _

/-- The search may take more steps than there are below any state. -/
theorem stepsBelow_lt_stepBound (variableCount d : Nat) :
    stepsBelow d (variableCount + 1) < stepBound variableCount d :=
  Nat.lt_of_lt_of_le (Nat.lt_add_of_pos_right (by decide)) (stepsBelow_le d (variableCount + 1))

theorem size_le_foldl (cells : List Cell) (size : Nat) :
    size ≤ cells.foldl (fun size cell => max size cell.domain.size) size ∧
      ∀ cell ∈ cells,
        cell.domain.size ≤ cells.foldl (fun size cell => max size cell.domain.size) size := by
  induction cells generalizing size with
  | nil => exact ⟨Nat.le_refl size, fun _ h => nomatch h⟩
  | cons cell cells ih =>
      obtain ⟨hstart, hall⟩ := ih (max size cell.domain.size)
      refine ⟨Nat.le_trans (Nat.le_max_left _ _) hstart, List.forall_mem_cons.mpr ⟨?_, hall⟩⟩
      exact Nat.le_trans (Nat.le_max_right _ _) hstart

/-- No domain is larger than the largest one. -/
theorem size_le_largestSize (s : Store) (v : Variable) : (s.domain v).size ≤ largestSize s := by
  rw [domain, largestSize, ← Array.foldl_toList]
  by_cases hv : s.domains.Owns v
  · rw [Domains.get_of_owns hv]
    cases hcell : s.domains.cells[v.index]? with
    | none => exact Nat.zero_le _
    | some cell =>
        have hmem : cell ∈ s.domains.cells := Array.mem_of_getElem? hcell
        exact (size_le_foldl _ 0).2 cell hmem.val
  · rw [Domains.get_of_not_owns hv]
    exact Nat.zero_le _

/-! ## A whole search -/

section Whole

variable {base : Store} {scope : List Variable} {c : SearchControl ρ τ} {t u : Store}

/-- When nothing is left to go back to, the search is over and says whether it has
    found something. -/
theorem step_ending {root : Snapshot} {w : Store} (hphase : c.phase = .backtracking)
    (hundo : undoTrial t c.stack = (.ok [], u)) (hroot : c.root = some root)
    (hrestore : u.restoreOwned root = (.ok (), w)) :
    ∃ s : Search ρ τ, Search.step policy rule ⟨c, t⟩ = (.ok none, s) ∧
      s.control.phase = .exhausted ∧ s.control.patience = c.patience ∧
      s.control.finalAnswer =
        if c.statistics.solutions = 0 then .unsatisfiable else .finished := by
  rw [Search.step]
  simp only [hphase]
  rw [Search.backtrack, hundo]
  simp only [finish, hroot, hrestore]
  exact ⟨_, rfl, rfl, rfl, rfl⟩

/-- Beginning a search for all solutions. -/
theorem start_all (howns : ∀ v ∈ scope, base.owns v = true) (random : ρ) (termination : τ) :
    ∃ s : Store, Alike base s ∧ s.domains = base.domains ∧
      start ⟨scope, true, none⟩ random termination base =
        .ok ⟨opening ⟨scope, true, none⟩ random termination s.snapshot.1 s.snapshot.2,
          s.snapshot.2⟩ := by
  have hall : scope.all base.owns = true := List.all_eq_true.mpr howns
  obtain ⟨s, halike, hdomains, hs⟩ : ∃ s, Alike base s ∧ s.domains = base.domains ∧
      (if scope.isEmpty then base.note .emptyScope else base) = s := by
    split
    · exact ⟨_, (Alike.refl base).note _, rfl, rfl⟩
    · exact ⟨_, .refl base, rfl, rfl⟩
  refine ⟨s.note (.searchStarted scope.length true none), halike.note _, hdomains, ?_⟩
  rw [start]
  simp only [hall, Bool.not_true, Bool.false_eq_true, if_false, hs]
  rw [begin_eq _ random termination s rfl]
  rfl

variable [RandomSource ρ] {choice : VariableChoice} {d : Nat}

/-- What is listed from the beginning on, and the end. -/
theorem yields_of_ready (order : ValueOrder)
    (hall : Unbounded rule scope c) (hready : Ready scope d base t.snapshot.2)
    (hst : t.domains.Stamped) (hphase : c.phase = .propagating) (hstack : c.stack = [])
    (hroot : c.root = some t.snapshot.1) (hnothing : c.statistics.solutions = 0)
    (hpatience : stepsBelow d (base.variableCount + 1) < c.patience) :
    Yields (.of choice order.choice) rule
      (if base.enumerate choice order scope = [] then .unsatisfiable else .finished)
      ⟨c, t.snapshot.2⟩ (base.enumerate choice order scope) := by
  have hcount : base.unfixedCount < base.variableCount + 1 :=
    Nat.lt_succ_of_le base.unfixedCount_le
  have hlists : ListsBelow choice order rule scope d (base.variableCount + 1) ρ :=
    listsBelow _
  obtain ⟨n, ⟨c', t'⟩, hn, hruns, hphase', honward, u, hundo, hev⟩ :=
    hlists hready hcount hphase hall
  rw [hstack] at hundo
  obtain ⟨s, hstep, hover, hpatience', hfinal⟩ := step_ending hphase' hundo
    (honward.root.trans hroot) (restore_of_evolves hst hev)
  have hgoing : c'.phase ≠ .exhausted := fun h => nomatch hphase'.symm.trans h
  have hwhole := hruns.trans (Runs.silent hgoing hstep hpatience')
  rw [List.append_nil] at hwhole
  have hyields := hwhole.yields hover (Nat.lt_of_le_of_lt hn hpatience)
  rw [hfinal, honward.solutions] at hyields
  simp only [hnothing, Nat.zero_add, List.length_eq_zero_iff] at hyields
  exact hyields

/-- **THE SEARCH IS THE ENUMERATION.** In every history of a store, a search for all
    solutions which is never stopped can be begun, and answers with what is
    enumerated, in this order, and then that there are no more. If discarded
    snapshots have been restored, the variables of the scope have to have values
    unless the store has failed. -/
theorem search_yields_enumeration {retries : Prop} {live discarded : List Snapshot}
    (hhistory : History retries base live discarded)
    (hscope : ∀ v ∈ scope, v ∈ base.allVariables)
    (hvalues : retries → base.failure = none → ∀ v ∈ scope, ∃ x, x ∈ base.domain v)
    (choice : VariableChoice) (order : ValueOrder) {termination : τ}
    (hnever : rule.NeverStops termination) (random : ρ) :
    ∃ begun, start ⟨scope, true, none⟩ random termination base = .ok begun ∧
      Yields (.of choice order.choice) rule
        (if base.enumerate choice order scope = [] then .unsatisfiable else .finished) begun
        (base.enumerate choice order scope) := by
  have howns : ∀ v ∈ scope, base.owns v = true := fun v hv => owns_of_mem (hscope v hv)
  have hinhabited : base.failure = none → ∀ v ∈ scope, ∃ x, x ∈ base.domain v := by
    by_cases hretries : retries
    · exact hvalues hretries
    · exact fun hf v hv => (hhistory.safe hretries).sane.inhabited hf v (hscope v hv)
  obtain ⟨s, halike, hdomains, hstart⟩ := start_all howns random termination
  have hst : s.domains.Stamped := hdomains ▸ hhistory.ordered.stamped
  have hsizes : ∀ v, (base.domain v).size ≤ largestSize s.snapshot.2 := by
    rw [← halike.snapshot.domain]
    exact size_le_largestSize s.snapshot.2
  have hready : Ready scope (largestSize s.snapshot.2) base s.snapshot.2 :=
    ⟨halike.snapshot, hhistory.tidy, hst.checkpoint, howns, hinhabited, hsizes⟩
  refine ⟨_, hstart, yields_of_ready order ⟨rfl, hnever⟩ hready hst rfl rfl rfl rfl ?_⟩
  have hcount : s.snapshot.2.variableCount = base.variableCount := halike.snapshot.shape.2
  rw [← hcount]
  exact stepsBelow_lt_stepBound _ _

end Whole

/-- With the largest value first, the search over the pair yields its four solutions in that
    order. -/
theorem search_in_flaggedPair_yields_enumeration :
    ∃ (begun : Search Generator Watch) (xs : List Solution),
      start ⟨[⟨0, 2⟩, ⟨0, 0⟩], true, none⟩ (.ofSeed 7) (.new .indefinite) flaggedPair =
          .ok begun ∧
        xs.map Solution.values = [[1, 1], [1, 0], [0, 1], [0, 0]] ∧
          Yields (.of .smallestDomain .inDomainMax) Watch.rule .finished begun xs := by
  obtain ⟨discarded, hhistory⟩ := (reached_flaggedPair fun _ => True).history
  have hscope : ∀ v ∈ ([⟨0, 2⟩, ⟨0, 0⟩] : List Variable), v ∈ flaggedPair.allVariables := by
    decide +kernel
  obtain ⟨begun, hstart, hyields⟩ := search_yields_enumeration hhistory hscope False.elim
    .smallestDomain .decreasing (Watch.neverStops_indefinite false) (Generator.ofSeed 7)
  rw [if_neg (by decide +kernel)] at hyields
  exact ⟨begun, _, hstart, by decide +kernel, hyields⟩

/-- A variable with two values. -/
def bit : Store := ((Store.empty 0 none).newInteger 0 1 none).2

/-- A variable without values in a store that has not failed. All its values were
    taken away; then a discarded snapshot was restored, as if it were the one that
    was taken after that, and with it the failure was forgotten. -/
def emptiedBit : Store :=
  let again := (bit.snapshot.2.snapshot.2.restore bit.snapshot.1).2.snapshot.2
  ((again.setLowerBound ⟨0, 0⟩ 5).2.snapshot.2.restore bit.snapshot.2.snapshot.1).2

/-- The emptied variable has a history, in which a snapshot is restored that was discarded. -/
theorem history_emptiedBit : ∃ live discarded, History True emptiedBit live discarded := by
  have hbit : History True bit [] [] := .operated (.empty 0 none) (.newInteger _ 0 1 none)
  have hnested : History True bit.snapshot.2.snapshot.2
      ([bit.snapshot.2.snapshot.1] ++ bit.snapshot.1 :: []) [] := hbit.snapshot.snapshot
  have hfailed : History True _ _ ([] ++ bit.snapshot.2.snapshot.1 :: []) :=
    (hnested.restored.snapshot.operated (.setLowerBound _ ⟨0, 0⟩ 5)).snapshot
  exact ⟨_, _, hfailed.retried trivial⟩

/-- The condition on values is needed: without values for the scope, the search
    breaks off where nothing is enumerated. -/
theorem search_in_emptiedBit_breaks_off :
    (∃ live discarded, History True emptiedBit live discarded) ∧
      emptiedBit.enumerate .inputOrder .increasing [⟨0, 0⟩] = [] ∧
        ∃ begun : Search Generator Watch,
          start ⟨[⟨0, 0⟩], true, none⟩ (.ofSeed 7) (.new .indefinite) emptiedBit = .ok begun ∧
            (begun.next (.of .inputOrder .inDomainMin) Watch.rule).1 = .error .nothingToTry := by
  have hrun : (start ⟨[⟨0, 0⟩], true, none⟩ (Generator.ofSeed 7) (Watch.new .indefinite)
      emptiedBit).map (fun begun => (begun.next (.of .inputOrder .inDomainMin) Watch.rule).1) =
      .ok (.error .nothingToTry) := by
    decide +kernel
  refine ⟨history_emptiedBit, by decide +kernel, ?_⟩
  cases hstart : start ⟨[⟨0, 0⟩], true, none⟩ (Generator.ofSeed 7) (Watch.new .indefinite)
      emptiedBit with
  | error e =>
      rw [hstart] at hrun
      cases hrun
  | ok begun =>
      rw [hstart] at hrun
      exact ⟨begun, rfl, Except.ok.inj hrun⟩

end Search

end ConstraintSolver
