import ConstraintSolver.Proofs.Completion
import ConstraintSolver.Proofs.Regions

/-! # Enumeration — what a search computes, by recursion

    The assignments of a scope that a search is to report can be listed by
    recursion on states of a store, without going back: propagate; if that
    succeeds and a variable of the scope is unfixed, list what there is for
    every value of it, in order; otherwise there is one assignment, provided
    that the variables outside the scope can be completed (`enumerate`).
    Whether they can be completed is decided by recursion, too
    (`completable`).

    Both recursions end because every trial fixes a variable and leaves those
    fixed which are (`unfixedCount_tryValue`). -/

namespace ConstraintSolver

open Constraint

/-! ## Values in order -/

/-- The values may be tried from the smallest one up, or from the largest one
    down. -/
inductive ValueOrder where
  | increasing
  | decreasing
  deriving DecidableEq, Repr

namespace ValueOrder

/-- The values of a domain in this order. -/
def list : ValueOrder → Domain → List Int
  | increasing, d => d.values
  | decreasing, d => d.values.reverse

/-- The choice that tries values in this order. -/
def choice : ValueOrder → ValueChoice
  | increasing => .inDomainMin
  | decreasing => .inDomainMax

/-- The value which comes first; it only matters for domains with values. -/
def first : ValueOrder → Domain → Int
  | increasing, d => d.lowerBound
  | decreasing, d => d.upperBound

/-- Either order lists the members. -/
theorem mem_list {order : ValueOrder} {d : Domain} {x : Int} : x ∈ order.list d ↔ x ∈ d := by
  cases order with
  | increasing => exact Domain.mem_values
  | decreasing => rw [list, List.mem_reverse, Domain.mem_values]

theorem isEmpty_iff (order : ValueOrder) {d : Domain} : d.isEmpty = true ↔ order.list d = [] := by
  rw [Domain.isEmpty_iff, List.eq_nil_iff_forall_not_mem]
  exact forall_congr' fun x => not_congr mem_list.symm

/-- Either order lists as many values as there are. -/
theorem length_list (order : ValueOrder) (d : Domain) : (order.list d).length = d.size := by
  cases order with
  | increasing => exact Domain.length_values d
  | decreasing => rw [list, List.length_reverse, Domain.length_values]

/-- Pruning leaves out values in either order. -/
theorem list_prune (order : ValueOrder) (d : Domain) (p : Pruning) :
    order.list (d.prune p) = (order.list d).filter fun x => decide (p.Keeps x) := by
  cases order with
  | increasing => exact Domain.values_prune d p
  | decreasing => rw [list, list, Domain.values_prune, List.filter_reverse]

/-- Neither order lists a value twice. -/
theorem nodup_list (order : ValueOrder) (d : Domain) : (order.list d).Nodup := by
  cases order with
  | increasing => exact d.nodup_values
  | decreasing => exact List.nodup_reverse.mpr d.nodup_values

/-- The first value is the head of the list. -/
theorem first_of_list {order : ValueOrder} {d : Domain} {x : Int} {rest : List Int}
    (h : order.list d = x :: rest) : order.first d = x := by
  have hx : x ∈ d := mem_list.mp (h ▸ List.mem_cons_self)
  cases order with
  | increasing =>
      have hlowest : d.lowerBound ∈ x :: rest := h ▸ mem_list.mpr (Domain.lowerBound_mem ⟨x, hx⟩)
      have hpair : (x :: rest).Pairwise (· < ·) := h ▸ d.values_ascending
      have hle := Domain.lowerBound_le hx
      rcases List.mem_cons.mp hlowest with heq | hmem
      · exact heq
      · have := (List.pairwise_cons.mp hpair).1 _ hmem
        omega
  | decreasing =>
      have hhighest : d.upperBound ∈ x :: rest := h ▸ mem_list.mpr (Domain.upperBound_mem ⟨x, hx⟩)
      have hpair : (x :: rest).Pairwise fun a b => b < a :=
        h ▸ List.pairwise_reverse.mpr d.values_ascending
      have hge := Domain.le_upperBound hx
      rcases List.mem_cons.mp hhighest with heq | hmem
      · exact heq
      · have := (List.pairwise_cons.mp hpair).1 _ hmem
        omega

/-- Without the first value, the rest of the list is left. -/
theorem list_except {order : ValueOrder} {d : Domain} {x : Int} {rest : List Int}
    (h : order.list d = x :: rest) : order.list (d.prune (.except x)) = rest := by
  have hnodup : (x :: rest).Nodup := h ▸ order.nodup_list d
  rw [list_prune, h, List.filter_cons_of_neg (by simp [Pruning.Keeps]), List.filter_eq_self]
  intro y hy
  rw [decide_eq_true_eq]
  rintro rfl
  exact (List.nodup_cons.mp hnodup).1 hy

end ValueOrder

/-- Without a smallest value there is none. -/
theorem Domain.values_of_min?_none {d : Domain} (h : d.min? = none) : d.values = [] := by
  refine List.eq_nil_iff_forall_not_mem.mpr fun x hx => ?_
  exact not_mem_of_min?_none h x (Domain.mem_values.mp hx)

/-- The smallest value comes first. -/
theorem Domain.values_of_min?_some {d : Domain} {x : Int} (h : d.min? = some x) :
    d.values = x :: (d.prune (.except x)).values := by
  have hx := Domain.mem_of_min? h
  cases hlist : ValueOrder.list .increasing d with
  | nil =>
      have hmem : x ∈ ValueOrder.list .increasing d := ValueOrder.mem_list.mpr hx
      rw [hlist] at hmem
      cases hmem
  | cons y rest =>
      have hfirst : d.lowerBound = y := ValueOrder.first_of_list hlist
      have hlowest : d.lowerBound = x := by
        rw [lowerBound, h]
        rfl
      obtain rfl : x = y := hlowest.symm.trans hfirst
      have hrest : (d.prune (.except x)).values = rest := ValueOrder.list_except hlist
      rw [hrest]
      exact hlist

namespace Store

variable {s t u : Store}

/-! ## What trials leave -/

/-- What had a value has one still. -/
def KeepsValues (s t : Store) : Prop :=
  ∀ v, (∃ x, x ∈ s.domains.get v) → ∃ x, x ∈ t.domains.get v

theorem KeepsValues.trans (h : KeepsValues s t) (h' : KeepsValues t u) : KeepsValues s u :=
  fun v hv => h' v (h v hv)

/-- A run that succeeds leaves a value to whoever had one. -/
theorem keepsValues_runOnce {id : ConstraintId} {c : Constraint}
    (h : s.runOnce id c = (.ok (), t)) : KeepsValues s t := by
  rw [runOnce_eq] at h
  intro v hv
  have hok : (c.propagate s.domains.settled).1 = .ok () := congrArg Prod.fst h
  obtain rfl : _ = t := congrArg Prod.snd h
  exact (built_propagate c).keeps_inhabited hok hv

/-- Work that succeeds leaves a value to whoever had one. -/
theorem keepsValues_work (s : Store) (current : Option ConstraintId)
    (hok : (s.work current).1 = .ok ()) : KeepsValues s (s.work current).2 := by
  induction s, current using work_induction with
  | finished s hpop => exact fun v hv => hv
  | popped s id rest r hpop ih => exact ih hok
  | absent s id r hc ih => exact ih hok
  | failed s id c why t hc hrun => cases hok
  | ran s id c t r hc hrun hq ih => exact (keepsValues_runOnce hrun).trans (ih hok)
  | rerun s id c t r hc hrun _ ih => exact (keepsValues_runOnce hrun).trans (ih hok)

/-- Propagation that succeeds leaves a value to whoever had one. -/
theorem keepsValues_propagate (h : s.propagate = (.ok (), t)) : KeepsValues s t := by
  obtain ⟨_, hwork, rfl⟩ := propagate_ok h
  exact keepsValues_work s none hwork

/-- An assignment that succeeds leaves a value to whoever had one. -/
theorem keepsValues_assign {v : Variable} {value : Int} (h : s.assign v value = (.ok (), t)) :
    KeepsValues s t := by
  obtain ⟨_, hprune⟩ := assign_ok h
  obtain ⟨_, _, _, hget, ⟨x, hx, hk⟩, _⟩ := prune_ok hprune
  intro w hw
  rw [hget]
  split
  · exact ⟨x, Domain.mem_prune.mpr ⟨hx, hk⟩⟩
  · exact hw

/-- Only variables of the store have values. -/
theorem mem_allVariables_of_mem {v : Variable} {x : Int} (h : x ∈ s.domains.get v) :
    v ∈ s.allVariables := by
  by_cases hv : s.domains.Owns v
  · refine mem_allVariables.mpr ⟨hv, ?_⟩
    by_contra hge
    rw [Domains.get_of_owns hv, Array.getElem?_eq_none (Nat.not_lt.mp hge)] at h
    exact Domain.not_mem_empty x h
  · rw [Domains.get_of_not_owns hv] at h
    exact absurd h (Domain.not_mem_empty x)

/-- A variable is fixed after it has been assigned. -/
theorem isFixed_assigned {v : Variable} {value : Int} (h : s.assign v value = (.ok (), t)) :
    (t.domains.get v).isFixed = true := by
  obtain ⟨hmem, hprune⟩ := assign_ok h
  obtain ⟨_, _, _, hget, _, _⟩ := prune_ok hprune
  rw [hget, if_pos rfl]
  refine Option.isSome_iff_exists.mpr ⟨value, Domain.fixedValue?_eq_some.mpr ?_⟩
  exact ⟨(mem_prune_exactly hmem).mpr rfl, fun x hx => (mem_prune_exactly hmem).mp hx⟩

theorem inhabited_of_isFixed {d : Domain} (h : d.isFixed = true) : ∃ x, x ∈ d := by
  obtain ⟨x, hx⟩ := Option.isSome_iff_exists.mp h
  exact ⟨x, (Domain.fixedValue?_eq_some.mp hx).1⟩

/-- Assigning a value to a variable that was not fixed fixes one variable more. -/
theorem unfixedCount_assign {v : Variable} {value : Int} (h : s.assign v value = (.ok (), t))
    (hfree : (s.domain v).isFixed = false) : t.unfixedCount < s.unfixedCount := by
  have hev := evolves_assign s v value
  rw [h] at hev
  have hkeep := keepsValues_assign h
  exact unfixedCount_lt hev (fun w _ hw => hkeep w (inhabited_of_isFixed hw))
    (mem_allVariables_of_mem (assign_ok h).1) hfree (isFixed_assigned h)

/-- Propagation that ends well leaves fixed variables fixed. -/
theorem unfixedCount_propagate (h : s.propagate = (.ok (), t)) :
    t.unfixedCount ≤ s.unfixedCount := by
  have hev := evolves_propagate s
  rw [h] at hev
  have hkeep := keepsValues_propagate h
  rw [unfixedCount, unfixedCount, hev.allVariables]
  refine List.countP_mono_left fun v _ hfree => ?_
  rw [Bool.not_eq_true'] at hfree ⊢
  rw [← Bool.not_eq_true] at hfree ⊢
  exact fun hfix =>
    hfree (isFixed_mono (hev.shrinks v) (hkeep v (inhabited_of_isFixed hfix)) hfix)

/-- A trial is an assignment and a propagation. -/
theorem tryValue_cases {v : Variable} {value : Int} (h : s.tryValue v value = (true, u)) :
    ∃ t, s.assign v value = (.ok (), t) ∧ t.propagate = (.ok (), u) := by
  rw [tryValue] at h
  split at h
  · cases h
  · rename_i t hassign
    split at h
    · cases h
    · rename_i u hprop
      cases h
      exact ⟨t, hassign, hprop⟩

/-- A value that is accepted fixes one more variable. -/
theorem unfixedCount_tryValue {v : Variable} {value : Int} (h : s.tryValue v value = (true, u))
    (hfree : (s.domain v).isFixed = false) : u.unfixedCount < s.unfixedCount := by
  obtain ⟨t, hassign, hprop⟩ := tryValue_cases h
  exact Nat.lt_of_le_of_lt (unfixedCount_propagate hprop) (unfixedCount_assign hassign hfree)

/-- The best of the unfixed variables is unfixed. -/
theorem isFixed_of_bestUnfixed {κ : Type} [LT κ] [DecidableLT κ] (direction : Direction)
    (key : Variable → κ) {scope : List Variable} {v : Variable}
    (h : ((VariableChoice.unfixed s scope).map fun vs => TieBreaker.best? direction vs key) =
      .ok (some v)) : (s.domain v).isFixed = false := by
  rw [VariableChoice.unfixed] at h
  split at h
  · cases h
  · have hsome : TieBreaker.best? direction (scope.filter fun v => !(s.domain v).isFixed) key =
        some v := Except.ok.inj h
    rcases TieBreaker.best?_cases direction (scope.filter fun v => !(s.domain v).isFixed) key with
      ⟨_, hnone⟩ | ⟨w, hw, hw'⟩
    · rw [hnone] at hsome
      cases hsome
    · rw [hw'] at hsome
      cases hsome
      simpa using (List.mem_filter.mp hw).2

/-- The first of the unfixed variables is unfixed. -/
theorem isFixed_of_firstUnfixed {vs : List Variable} {v : Variable}
    (h : VariableChoice.firstUnfixed s vs = .ok (some v)) : (s.domain v).isFixed = false := by
  induction vs with
  | nil => cases h
  | cons w vs ih =>
      rw [VariableChoice.firstUnfixed] at h
      split at h
      · cases h
      · split at h
        · exact ih h
        · rename_i hfree
          cases h
          exact Bool.not_eq_true _ ▸ hfree

/-- A choice looks for an unfixed variable. -/
theorem isFixed_of_choose {choice : VariableChoice} {scope : List Variable} {v : Variable}
    (h : choice.choose s scope = .ok (some v)) : (s.domain v).isFixed = false := by
  cases choice with
  | largestDomain => exact isFixed_of_bestUnfixed _ _ h
  | smallestDomain => exact isFixed_of_bestUnfixed _ _ h
  | mostConstrained => exact isFixed_of_bestUnfixed _ _ h
  | inputOrder => exact isFixed_of_firstUnfixed h

/-! ## Completion -/

/-- The undecided variable with the fewest values. -/
def tightest (s : Store) : Option Variable :=
  TieBreaker.best? .minimum s.undecidedVariables fun v => (s.domain v).size

/-- There is a tightest variable unless no constraint is undecided. -/
theorem tightest_cases (s : Store) :
    (s.undecidedVariables = [] ∧ s.tightest = none) ∨
      ∃ v ∈ s.undecidedVariables, s.tightest = some v :=
  TieBreaker.best?_cases .minimum s.undecidedVariables _

/-- The tightest variable is unfixed. -/
theorem isFixed_of_tightest {v : Variable} (h : s.tightest = some v) :
    (s.domain v).isFixed = false := by
  rcases s.tightest_cases with ⟨_, hnone⟩ | ⟨w, hw, hw'⟩
  · cases hnone.symm.trans h
  · cases hw'.symm.trans h
    exact (mem_undecidedVariables.mp hw).2

/-- Whether the unfixed variables can be given values: the tightest one has a value
    with which the others can be given values. -/
def completable (s : Store) : Bool :=
  match _h : s.tightest with
  | none => true
  | some v =>
      (s.domain v).values.any fun value =>
        match _htry : s.tryValue v value with
        | (false, _) => false
        | (true, t) => completable t
termination_by s.unfixedCount
decreasing_by exact unfixedCount_tryValue _htry (isFixed_of_tightest _h)

/-- The other variables can be completed when the value is assigned. -/
def admits (s : Store) (v : Variable) (value : Int) : Bool :=
  match s.tryValue v value with
  | (false, _) => false
  | (true, t) => t.completable

/-- Where every constraint is decided, there is nothing to complete. -/
theorem completable_of_none (h : s.tightest = none) : s.completable = true := by
  rw [completable]
  split
  · rfl
  · rename_i heq
    rw [h] at heq
    cases heq

/-- Where a constraint is undecided, a value of the tightest variable has to be admitted. -/
theorem completable_of_some {v : Variable} (h : s.tightest = some v) :
    s.completable = (s.domain v).values.any (s.admits v) := by
  rw [completable]
  split
  · rename_i heq
    rw [h] at heq
    cases heq
  · rename_i heq
    rw [h] at heq
    cases heq
    refine congrArg _ (funext fun value => ?_)
    rw [admits]
    cases s.tryValue v value with
    | mk held t => cases held <;> rfl

/-! ## Enumeration -/

/-- The assignment of the scope, where all of it is fixed. -/
def reading (s : Store) (scope : List Variable) : Solution :=
  s.restriction scope fun v => (s.domain v).lowerBound

/-- **THE ENUMERATION**: the assignments of the scope which a store leaves, listed by
    propagating and branching. -/
def enumerate (choice : VariableChoice) (order : ValueOrder) (scope : List Variable)
    (s : Store) : List Solution :=
  match _hprop : s.propagate with
  | (.error _, _) => []
  | (.ok (), t) =>
      match _hchoose : choice.choose t scope with
      | .error _ => []
      | .ok none => if t.completable then [t.reading scope] else []
      | .ok (some v) =>
          (order.list (t.domain v)).flatMap fun value =>
            match _hassign : t.assign v value with
            | (.error _, _) => []
            | (.ok (), u) => enumerate choice order scope u
termination_by s.unfixedCount
decreasing_by
  exact Nat.lt_of_lt_of_le (unfixedCount_assign _hassign (isFixed_of_choose _hchoose))
    (unfixedCount_propagate _hprop)

/-- The part of the enumeration in which a variable has the value. -/
def enumerateWith (choice : VariableChoice) (order : ValueOrder) (scope : List Variable)
    (s : Store) (v : Variable) (value : Int) : List Solution :=
  match s.assign v value with
  | (.error _, _) => []
  | (.ok (), t) => t.enumerate choice order scope

variable {choice : VariableChoice} {order : ValueOrder} {scope : List Variable}

/-- Below a value that is accepted the enumeration goes on. -/
theorem enumerateWith_of_assign {v : Variable} {value : Int}
    (h : s.assign v value = (.ok (), t)) :
    s.enumerateWith choice order scope v value = t.enumerate choice order scope := by
  rw [enumerateWith, h]

/-- A store whose propagation fails has nothing to list. -/
theorem enumerate_of_error {why : Inconsistency} (h : s.propagate = (.error why, t)) :
    s.enumerate choice order scope = [] := by
  rw [enumerate]
  split
  · rfl
  · rename_i heq
    rw [h] at heq
    cases heq

/-- Where the scope is fixed, there is one assignment to list, or none. -/
theorem enumerate_of_none (h : s.propagate = (.ok (), t))
    (hchoose : choice.choose t scope = .ok none) :
    s.enumerate choice order scope = if t.completable then [t.reading scope] else [] := by
  rw [enumerate]
  split
  · rename_i heq
    rw [h] at heq
    cases heq
  · rename_i heq
    rw [h] at heq
    cases heq
    split
    · rename_i hc
      rw [hchoose] at hc
      cases hc
    · rfl
    · rename_i hc
      rw [hchoose] at hc
      cases hc

/-- Otherwise, what there is to list for each value is listed in order. -/
theorem enumerate_of_some {v : Variable} (h : s.propagate = (.ok (), t))
    (hchoose : choice.choose t scope = .ok (some v)) :
    s.enumerate choice order scope =
      (order.list (t.domain v)).flatMap (t.enumerateWith choice order scope v) := by
  rw [enumerate]
  split
  · rename_i heq
    rw [h] at heq
    cases heq
  · rename_i heq
    rw [h] at heq
    cases heq
    split
    · rename_i hc
      rw [hchoose] at hc
      cases hc
    · rename_i hc
      rw [hchoose] at hc
      cases hc
    · rename_i hc
      rw [hchoose] at hc
      cases hc
      -- the recursion carries a proof that it ends, which the equation leaves out
      refine congrFun (congrArg List.flatMap (funext fun value => ?_)) _
      rw [enumerateWith]
      cases t.assign v value with
      | mk result u => cases result <;> rfl

end Store

end ConstraintSolver
