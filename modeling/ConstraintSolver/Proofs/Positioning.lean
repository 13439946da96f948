import ConstraintSolver.Model.Positioning
import ConstraintSolver.Proofs.PartPlans
import ConstraintSolver.Proofs.Tuples

/-! # Positioning — the block of parts, and nothing else

    After the decision variables and the parts, the plan has an index for
    every part.  A solution of the plan is a tuple of parts in which each part
    is found where its index says, and the indices are consecutive; so the
    tuple contains all parts in order, next to each other. -/

namespace ConstraintSolver

open Constraint Store Parts

namespace Positioning

/-! ## The plan -/

/-- After the parts there is an index for each of them. -/
def indices (n : Nat) : Extras where
  label i := some (numbered "part-" (i + 1) ".index")
  domain _ := .between 1 n
  distinct hi hj := by
    cases hi
    have := (numbered_inj (by decide) (by decide) (by decide) (by decide) (Option.some.inj hj)).1
    omega
  unreserved h := by
    cases h
    exact isReserved_numbered (c := 'p') rfl (by decide)
  apart h j := by
    cases h
    refine ⟨fun h => ?_, fun h => ?_⟩ <;>
      exact absurd (numbered_inj (by decide) (by decide) (by decide) (by decide) h).2 (by decide)

section Build

variable (number n p : Nat)

/-- The part is found at its index. -/
def found (i : Nat) : Constraint :=
  .element (extra number n p i) ((List.range n).map (decision number)) (part number n i) 1

/-- The index of the next part is the next. -/
def linked (i : Nat) : Constraint :=
  .linear (extra number n p i) 1 .equal (extra number n p (i + 1))

/-- All constraints of the model. -/
def constraints : List Constraint :=
  (List.range p).map (found number n p) ++ (List.range (p - 1)).map (linked number n p)

/-- The assignment is a solution of the plan. -/
def Solves (σ : Assignment) : Prop :=
  (plan number n p (indices n)).Solved (n + p + p) (constraints number n p) σ

variable {number n p} {s : Store} {k i : Nat}

/-- What finds a part refers to variables declared before. -/
theorem admits_found (hi : i < p) (hk : n + p + i < k) :
    (plan number n p (indices n)).Admits k (found number n p i) := by
  refine ⟨fun v hv => ?_, (fun b hb => nomatch hb), fun k hk => nomatch hk⟩
  simp only [found, occurrences, List.mem_cons, List.mem_append, List.mem_map, List.mem_range,
    List.not_mem_nil, or_false] at hv
  rcases hv with rfl | ⟨j, hj, rfl⟩ | rfl
  · exact ⟨_, hk, rfl⟩
  · exact ⟨j, by omega, rfl⟩
  · exact ⟨n + i, by omega, rfl⟩

/-- What links two indices refers to variables declared before. -/
theorem admits_linked (hk : n + p + (i + 1) < k) :
    (plan number n p (indices n)).Admits k (linked number n p i) := by
  refine ⟨fun v hv => ?_, (fun b hb => nomatch hb), fun offset hoffset => ?_⟩
  · simp only [linked, occurrences, List.mem_cons, List.not_mem_nil, or_false] at hv
    rcases hv with rfl | rfl
    · exact ⟨_, by omega, rfl⟩
    · exact ⟨_, hk, rfl⟩
  · simp only [linked, offsets, List.mem_singleton] at hoffset
    subst hoffset
    decide

/-- The constraints which find some of the parts. -/
def foundUpTo (number n p i : Nat) : List Constraint := (List.range i).map (found number n p)

/-- One part more is found by one constraint more. -/
theorem foundUpTo_succ (number n p i : Nat) :
    foundUpTo number n p i ++ [found number n p i] = foundUpTo number n p (i + 1) := by
  rw [foundUpTo, foundUpTo, List.range_succ, List.map_append, List.map_singleton]

theorem foundUpTo_prefix (number n : Nat) (hi : i ≤ p) :
    foundUpTo number n p i <+: constraints number n p :=
  ((Build.range_prefix hi).map _).trans (List.prefix_append _ _)

/-- Every part gets an index at which it is found. -/
theorem leadsTo_declareIndices (hn : InRange n) (hn0 : n ≠ 0)
    (hroom : (constraints number n p).length ≤ ConstraintId.limit)
    (h : Stage (plan number n p (indices n)) (n + p) [] s) :
    (declareIndices ⟨n, p⟩ ((List.range n).map (decision number))
      ((List.range p).map (part number n))).LeadsTo s
      (fun vs t => vs = (List.range p).map (extra number n p) ∧
        Stage (plan number n p (indices n)) (n + p + p) (foundUpTo number n p p) t)
      (∀ σ, ¬ Solves number n p σ) := by
  rw [declareIndices]
  refine (Build.leadsTo_mapM
    (fun i t => Stage (plan number n p (indices n)) (n + p + i) (foundUpTo number n p i) t)
    (extra number n p) (fun i hi t ht => ?_) h).mono
    (fun vs t ht => ?_) id
  · have hip : i < p := by simpa [length_numbers] using hi
    simp only [List.getElem_zip, List.getElem_map, List.getElem_range, getElem_numbers,
      partName_eq]
    rw [numbered_append]
    refine (Build.leadsTo_integer ht label_extra domain_extra
      (one_mem_numbers hn hn0)).bind fun index u hu => ?_
    obtain ⟨rfl, hu⟩ := hu
    -- one index is declared, and the element constraint that uses it imposed
    have hsucc := foundUpTo_succ number n p i
    have himpose := Build.leadsTo_impose hu (admits_found hip (Nat.lt_succ_self _))
      (by omega : n + p + i + 1 ≤ n + p + p) (hsucc ▸ foundUpTo_prefix number n hip) hroom
    rw [hsucc] at himpose
    exact himpose.bind fun _ v hv => Build.leadsTo_pure ⟨rfl, hv⟩
  · simpa [length_numbers] using ht

/-- The constraints before some of the links. -/
def linkedUpTo (number n p i : Nat) : List Constraint :=
  foundUpTo number n p p ++ (List.range i).map (linked number n p)

/-- One part more is linked by one constraint more. -/
theorem linkedUpTo_succ (number n p i : Nat) :
    linkedUpTo number n p i ++ [linked number n p i] = linkedUpTo number n p (i + 1) := by
  rw [linkedUpTo, linkedUpTo, List.range_succ, List.map_append, List.map_singleton,
    List.append_assoc]

theorem linkedUpTo_prefix (number n : Nat) (hi : i + 1 ≤ p) :
    linkedUpTo number n p i <+: constraints number n p := by
  refine (List.prefix_append_right_inj _).mpr ((Build.range_prefix ?_).map _)
  omega

/-- Neighbouring indices are linked, from some part on. -/
theorem leadsTo_chain (hroom : (constraints number n p).length ≤ ConstraintId.limit) {m : Nat}
    (hm : i + m + 1 = p)
    (h : Stage (plan number n p (indices n)) (n + p + p) (linkedUpTo number n p i) s) :
    (chain ((List.range' i (m + 1)).map (extra number n p))).LeadsTo s
      (fun _ t => Stage (plan number n p (indices n)) (n + p + p) (constraints number n p) t)
      (∀ σ, ¬ Solves number n p σ) := by
  induction m generalizing i s with
  | zero =>
      obtain rfl : p - 1 = i := by omega
      exact Build.leadsTo_pure h
  | succ m ih =>
      have hsucc := linkedUpTo_succ number n p i
      have hprefix := linkedUpTo_prefix number n (by omega : i + 1 + 1 ≤ p)
      have himpose := Build.leadsTo_impose h (admits_linked (by omega))
        (Nat.le_refl (n + p + p)) (hsucc ▸ hprefix) hroom
      rw [hsucc] at himpose
      exact himpose.bind fun _ t ht => ih (by omega) ht

/-- **THE BUILD** comes to the end of its plan, or the plan has no solution. -/
theorem leadsTo_build (number : Nat) (listensTo : Option Level) (hn : InRange n)
    (hp : InRange p) (hn0 : n ≠ 0) (hp0 : p ≠ 0) :
    (build ⟨n, p⟩).LeadsTo (.empty number listensTo)
      (fun vs t => vs = (List.range n).map (decision number) ∧
        Stage (plan number n p (indices n)) (n + p + p) (constraints number n p) t)
      (∀ σ, ¬ Solves number n p σ) := by
  have hroom : (constraints number n p).length ≤ ConstraintId.limit := by
    rw [constraints, List.length_append, List.length_map, List.length_map, List.length_range,
      List.length_range]
    simp only [InRange, maxValue, ConstraintId.limit] at hp ⊢
    omega
  refine (leadsTo_declareVariables hp hp0
    (.empty (plan number n p (indices n)) listensTo)).bind fun vs s hs => ?_
  obtain ⟨rfl, hs⟩ := hs
  refine (leadsTo_declareParts hp hs).bind fun vs s hs => ?_
  obtain ⟨rfl, hs⟩ := hs
  refine (leadsTo_declareIndices hn hn0 hroom hs).bind fun vs s hs => ?_
  obtain ⟨rfl, hs⟩ := hs
  have hall : linkedUpTo number n p 0 = foundUpTo number n p p := List.append_nil _
  have hchain := leadsTo_chain (i := 0) (m := p - 1) hroom (by omega) (hall ▸ hs)
  rw [← List.range_eq_range', Nat.sub_add_cancel (by omega)] at hchain
  refine hchain.bind fun _ s hs => ?_
  exact (Build.leadsTo_finished hs).bind fun _ s hs => Build.leadsTo_pure ⟨rfl, hs⟩

end Build

/-! ## The solutions -/

section Solutions

variable {number n p : Nat} {σ : Assignment}

/-- **A PLACEMENT**: what the values of the decision variables and of the indices have to do
    with each other. -/
structure Placed (n p : Nat) (decision index : Nat → Int) : Prop where
  parts : ∀ j < n, 1 ≤ decision j ∧ decision j ≤ p
  found : ∀ i < p, ∃ j < n, index i = Int.ofNat j + 1 ∧ decision j = Int.ofNat i + 1
  linked : ∀ i, i + 1 < p → index i + 1 = index (i + 1)

/-- A part is found exactly if it is held at its index. -/
theorem holds_found {i : Nat} :
    (found number n p i).holds σ = true ↔
      ∃ j < n, σ (extra number n p i) = Int.ofNat j + 1 ∧
        σ (decision number j) = σ (part number n i) := by
  rw [found, holds, Option.any_eq_true]
  simp only [elementAt?_eq_some, beq_iff_eq, List.getElem?_map, Option.map_eq_some_iff]
  constructor
  · rintro ⟨v, ⟨j, hindex, k, hk, rfl⟩, heq⟩
    obtain ⟨hj, rfl⟩ := List.getElem?_eq_some_iff.mp hk
    rw [List.getElem_range] at heq
    rw [List.length_range] at hj
    exact ⟨j, hj, hindex.trans (Int.add_comm ..), heq⟩
  · rintro ⟨j, hj, hindex, heq⟩
    exact ⟨_, ⟨j, hindex.trans (Int.add_comm ..), j, List.getElem?_range hj, rfl⟩, heq⟩

/-- Two parts are linked exactly if their indices follow each other. -/
theorem holds_linked {i : Nat} :
    (linked number n p i).holds σ = true ↔
      σ (extra number n p i) + 1 =
        σ (extra number n p (i + 1)) := by
  rw [linked, holds, EqualityRelation.relates, beq_iff_eq]

/-- **THE SOLUTIONS OF THE PLAN** are the placements. -/
theorem solves_iff (hn : InRange n) (hp : InRange p) :
    Solves number n p σ ↔
      (∀ i < p, σ (part number n i) = Int.ofNat i + 1) ∧
        Placed n p (fun j => σ (decision number j)) (fun i => σ (extra number n p i)) := by
  rw [Solves, Plan.Solved, draws_iff hp, constraints]
  simp only [List.forall_mem_append, List.forall_mem_map, List.mem_range, holds_found,
    holds_linked]
  constructor
  · rintro ⟨⟨hparts, hpart, _⟩, hfound, hlinked⟩
    refine ⟨hpart, hparts, fun i hi => ?_, fun i hi => hlinked i (by omega)⟩
    obtain ⟨j, hj, hindex, heq⟩ := hfound i hi
    exact ⟨j, hj, hindex, heq.trans (hpart i hi)⟩
  · rintro ⟨hpart, hparts, hfound, hlinked⟩
    refine ⟨⟨hparts, hpart, fun i hi => ?_⟩, fun i hi => ?_, fun i hi => hlinked i (by omega)⟩
    · obtain ⟨j, hj, hindex, _⟩ := hfound i hi
      rw [hindex]
      refine (mem_numbers hn).mpr ?_
      simp only [Int.ofNat_eq_natCast]
      omega
    · obtain ⟨j, hj, hindex, heq⟩ := hfound i hi
      exact ⟨j, hj, hindex, heq.trans (hpart i hi).symm⟩

/-- Consecutive indices are those of a block. -/
theorem Placed.index_eq {decision index : Nat → Int} (h : Placed n p decision index) {i : Nat}
    (hi : i < p) : index i = index 0 + i := by
  induction i with
  | zero => exact (Int.add_zero _).symm
  | succ i ih =>
      rw [← h.linked i hi, ih (by omega), Int.add_assoc]
      rfl

/-- A tuple has the numbers next to each other if it has them from some place on. -/
theorem numbers_infix_iff {tuple : List Int} :
    Parts.numbers p <:+: tuple ↔
      ∃ first, p + first ≤ tuple.length ∧ ∀ i < p, tuple[i + first]? = some (Int.ofNat i + 1) := by
  rw [List.infix_iff_getElem?]
  simp only [length_numbers, getElem_numbers]

/-- In a placement the parts stand next to each other. -/
theorem Placed.block {decision index : Nat → Int} (h : Placed n p decision index) (hp0 : p ≠ 0) :
    Parts.numbers p <:+: (List.range n).map decision := by
  obtain ⟨first, _, hfirst, _⟩ := h.found 0 (by omega)
  -- the part with number i + 1 is i places after the first
  have hplace : ∀ i < p, i + first < n ∧ decision (i + first) = Int.ofNat i + 1 := by
    intro i hi
    obtain ⟨j, hj, hindex, hdecision⟩ := h.found i hi
    rw [h.index_eq hi, hfirst] at hindex
    obtain rfl : j = i + first := by
      simp only [Int.ofNat_eq_natCast] at hindex
      omega
    exact ⟨hj, hdecision⟩
  rw [numbers_infix_iff, List.length_map, List.length_range]
  refine ⟨first, ?_, fun i hi => ?_⟩
  · have := (hplace (p - 1) (by omega)).1
    omega
  · obtain ⟨hlt, hdecision⟩ := hplace i hi
    rw [List.getElem?_map, List.getElem?_range hlt, Option.map_some, hdecision]

/-- A tuple with the parts next to each other is the tuple of a solution. -/
theorem exists_solves {tuple : List Int} (hn : InRange n) (hp : InRange p)
    (hlength : tuple.length = n) (hparts : ∀ x ∈ tuple, 1 ≤ x ∧ x ≤ p)
    (hblock : Parts.numbers p <:+: tuple) :
    ∃ σ, Solves number n p σ ∧ tuple = ((List.range n).map (decision number)).map σ := by
  obtain ⟨first, hfirst, hfound⟩ := numbers_infix_iff.mp hblock
  -- every part is found where the block has it
  let σ : Assignment := assignment n p tuple fun i => Int.ofNat (i + first) + 1
  have hdecision : ∀ j (hj : j < tuple.length), σ (decision number j) = tuple[j] := fun j hj =>
    assignment_decision hlength hj
  have hindex : ∀ i, σ (extra number n p i) = Int.ofNat (i + first) + 1 := fun i =>
    assignment_extra
  refine ⟨σ, (solves_iff hn hp).mpr
    ⟨fun i hi => assignment_part hi, fun j hj => ?_, fun i hi => ?_, fun i _ => ?_⟩,
    (map_assignment hlength).symm⟩
  · rw [hdecision j (hlength.symm ▸ hj)]
    exact hparts _ (List.getElem_mem _)
  · have hlt : i + first < tuple.length := by omega
    have hvalue := hfound i hi
    rw [List.getElem?_eq_getElem hlt] at hvalue
    exact ⟨i + first, by omega, hindex i, (hdecision _ hlt).trans (Option.some.inj hvalue)⟩
  · simp only [hindex, Int.ofNat_eq_natCast]
    omega

/-- **THE TUPLES OF THE SOLUTIONS** are those in which the parts stand next to each
    other. -/
theorem exists_solves_iff {tuple : List Int} (hn : InRange n) (hp : InRange p) (hp0 : p ≠ 0) :
    (∃ σ, Solves number n p σ ∧ tuple = ((List.range n).map (decision number)).map σ) ↔
      tuple.length = n ∧ (∀ x ∈ tuple, 1 ≤ x ∧ x ≤ p) ∧ Parts.numbers p <:+: tuple := by
  constructor
  · rintro ⟨σ, hσ, rfl⟩
    obtain ⟨_, hplaced⟩ := (solves_iff hn hp).mp hσ
    rw [List.map_map]
    refine ⟨by simp, fun x hx => ?_, hplaced.block hp0⟩
    obtain ⟨j, hj, rfl⟩ := List.mem_map.mp hx
    exact hplaced.parts j (List.mem_range.mp hj)
  · rintro ⟨hlength, hparts, hblock⟩
    exact exists_solves hn hp hlength hparts hblock

end Solutions

/-! ## Too many parts -/

section Stability

variable {number n p : Nat} {s : Store}

/-- A stable link moves a value of an index on to the next. -/
theorem mem_of_linked
    (h : Stage (plan number n p (indices n)) (n + p + p) (constraints number n p) s)
    {i : Nat} (hi : i + 1 < p) {x : Int} (hx : x ∈ s.domains.get (extra number n p i)) :
    x + 1 ∈ s.domains.get (extra number n p (i + 1)) := by
  have hmem : linked number n p i ∈ constraints number n p :=
    List.mem_append_right _ (List.mem_map.mpr ⟨i, List.mem_range.mpr (by omega), rfl⟩)
  obtain ⟨hsuits, hstable⟩ := h.stable hmem
  rw [linked, Stable, Constraint.propagate, idle_linear_iff hsuits.inhabited] at hstable
  have hne : extra number n p i ≠ extra number n p (i + 1) :=
    fun heq => absurd (congrArg Variable.index heq) (by simp [extra])
  rw [LinearBalance, if_neg hne] at hstable
  obtain ⟨y, hy, hyx⟩ := Domain.mem_shift.mp (hstable.2 x hx)
  -- the sum does not leave the range
  have hrange := h.shrinks _ (by omega : n + p + (i + 1) < n + p + p) y hy
  rw [domain_extra] at hrange
  replace hrange := Domain.mem_between.mp hrange
  have hsum : saturate (y + saturate (-1)) = y - 1 := by
    simp only [InRange, saturate, minValue, maxValue] at *
    omega
  have hyx' : y = x + 1 := by omega
  exact hyx' ▸ hy

/-- **THE PARTS FIT**, if the whole plan has been carried out. -/
theorem parts_fit (h : Stage (plan number n p (indices n)) (n + p + p) (constraints number n p) s)
    (hp0 : p ≠ 0) : p ≤ n := by
  have hbounds : ∀ i < p, ∀ x ∈ s.domains.get (extra number n p i),
      1 ≤ x ∧ x ≤ n := by
    intro i hi x hx
    have hx' := h.shrinks (n + p + i) (by omega) x hx
    rw [domain_extra] at hx'
    exact (Domain.mem_between.mp hx').2
  obtain ⟨x, hx⟩ := h.fixpoint.inhabited (extra number n p 0)
    (h.mem_allVariables_iff.mpr ⟨n + p + 0, by omega, rfl⟩)
  -- a value of the first index leads to one of the last
  have hall : ∀ i < p, x + i ∈ s.domains.get (extra number n p i) := by
    intro i hi
    induction i with
    | zero => exact (Int.add_zero x).symm ▸ hx
    | succ i ih =>
        have hsucc := mem_of_linked h hi (ih (by omega))
        rwa [Int.add_assoc] at hsucc
  have hfirst := (hbounds 0 (by omega) x hx).1
  have hlast := (hbounds (p - 1) (by omega) _ (hall (p - 1) (by omega))).2
  omega

end Stability

/-! ## The model -/

/-- With enough variables there is a tuple with a block of all parts. -/
theorem exists_block {n p : Nat} (hpn : p ≤ n) (hp0 : p ≠ 0) :
    ∃ tuple : List Int, tuple.length = n ∧ (∀ x ∈ tuple, 1 ≤ x ∧ x ≤ p) ∧
      Parts.numbers p <:+: tuple := by
  refine ⟨Parts.numbers p ++ List.replicate (n - p) 1, ?_, fun x hx => ?_,
    (List.prefix_append _ _).isInfix⟩
  · rw [List.length_append, length_numbers, List.length_replicate]
    omega
  · rcases List.mem_append.mp hx with hx | hx
    · obtain ⟨i, hi, rfl⟩ := List.getElem_of_mem hx
      rw [getElem_numbers]
      rw [length_numbers] at hi
      simp only [Int.ofNat_eq_natCast]
      omega
    · rw [List.eq_of_mem_replicate hx]
      omega

/-- **THE MODEL LISTS THE BLOCKS.** If there are more parts than decision variables it is
    inconsistent. Otherwise it is built, and a search for all solutions over its scope
    lists exactly the tuples which have all parts in order, next to each other. -/
theorem build_lists_blocks (number : Nat) (listensTo : Option Level) {size : ModelSize}
    (hn : InRange size.variableCount) (hp : InRange size.partCount)
    (hn1 : 1 ≤ size.variableCount) (hp1 : 1 ≤ size.partCount) :
    (size.variableCount < size.partCount → ∃ id s,
      build size (.empty number listensTo) = (.error (.refused (.modelInconsistent id)), s)) ∧
    (size.partCount ≤ size.variableCount → ∃ scope s,
      build size (.empty number listensTo) = (.ok scope, s) ∧
        scope.map s.name =
          (List.range size.variableCount.toNat).map (fun j => numbered "x" j "") ∧
        s.ListsExactly scope fun tuple =>
          tuple.length = size.variableCount ∧ (∀ x ∈ tuple, 1 ≤ x ∧ x ≤ size.partCount) ∧
            Parts.numbers size.partCount <:+: tuple) := by
  obtain ⟨n, p⟩ := size
  obtain ⟨n, rfl⟩ := Int.eq_ofNat_of_zero_le (Int.le_trans (by decide) hn1 : 0 ≤ n)
  obtain ⟨p, rfl⟩ := Int.eq_ofNat_of_zero_le (Int.le_trans (by decide) hp1 : 0 ≤ p)
  have hn0 : n ≠ 0 := fun h => by simp [h] at hn1
  have hp0 : p ≠ 0 := fun h => by simp [h] at hp1
  have hbuild := leadsTo_build number listensTo hn hp hn0 hp0
  rw [Build.LeadsTo] at hbuild
  generalize build ⟨n, p⟩ (.empty number listensTo) = outcome at hbuild ⊢
  cases hbuild with
  | @well scope s hs =>
      obtain ⟨rfl, hstage⟩ := hs
      refine ⟨fun hlt => ?_, fun _ => ⟨_, s, rfl, decision_names hstage (by omega), ?_⟩⟩
      -- a plan that can be built has room for the parts
      · have := parts_fit hstage hp0
        simp only at hlt
        omega
      · refine (hstage.listsExactly fun v hv => ?_).congr fun tuple => ?_
        · obtain ⟨j, hj, rfl⟩ := List.mem_map.mp hv
          have := List.mem_range.mp hj
          exact ⟨j, by omega, rfl⟩
        · simp only [Int.natCast_inj]
          exact exists_solves_iff hn hp hp0
  | @badly id s hno =>
      refine ⟨fun _ => ⟨id, s, rfl⟩, fun hle => ?_⟩
      -- with room for the parts, a block and anything after it is a solution
      obtain ⟨tuple, hlength, hparts, hblock⟩ := exists_block (Int.ofNat_le.mp hle) hp0
      obtain ⟨σ, hσ, _⟩ := exists_solves hn hp hlength hparts hblock
      exact absurd hσ (hno σ)

/-- Two variables have no room for a block of three parts; three have room for a block of two at
    either end. -/
theorem build_of_three_lists_blocks_of_two :
    (∃ id s, build ⟨2, 3⟩ (.empty 0 none) = (.error (.refused (.modelInconsistent id)), s)) ∧
      ∃ scope s, build ⟨3, 2⟩ (.empty 0 none) = (.ok scope, s) ∧
        scope.map s.name = ["x0", "x1", "x2"] ∧
        s.ListsExactly scope fun tuple =>
          tuple.length = (3 : Int) ∧ (∀ x ∈ tuple, 1 ≤ x ∧ x ≤ 2) ∧ [1, 2] <:+: tuple :=
  ⟨(build_lists_blocks 0 none (by decide) (by decide) (by decide) (by decide)).1 (by decide),
    (build_lists_blocks 0 none (by decide) (by decide) (by decide) (by decide)).2 (by decide)⟩

end Positioning

end ConstraintSolver
