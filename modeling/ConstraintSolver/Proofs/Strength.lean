import Mathlib.Data.List.Infix
import ConstraintSolver.Model.Strength
import ConstraintSolver.Proofs.PartPlans
import ConstraintSolver.Proofs.Tuples

/-! # Strength — the strength of the part, and nothing else

    After the decision variables and the parts, the plan has a strength for
    every decision variable, with a flag for every part.  The flags tell which
    part the variable holds, and tie the strength to it; so a solution of the
    plan is a tuple of parts with their strengths, all of which reach the
    threshold. -/

namespace ConstraintSolver

open Constraint Store Parts

namespace Strength

/-! ## The values of a strength -/

/-- The strengths of the first parts, one more than the number given. -/
def strengths : Nat → Domain
  | 0 => .ofValues [unit]
  | i + 1 =>
      strengths i ∪
        .between (strengthOf (Int.ofNat (i + 1) + 1)) (strengthOf (Int.ofNat (i + 1) + 1))

section Values

variable {p : Nat}

/-- Where the strength of the last part is in the range, the number of parts is. -/
theorem inRange_count (hp : InRange (p * unit)) : InRange p := by
  simp only [InRange, minValue, maxValue, unit] at hp ⊢
  omega

/-- Where the strength of the last part is in the range, all strengths are. -/
theorem inRange_strength (hp : InRange (p * unit)) {i : Nat} (hi : i < p) :
    InRange ((Int.ofNat i + 1) * unit) := by
  simp only [InRange, minValue, maxValue, unit, Int.ofNat_eq_natCast] at hp ⊢
  omega

/-- The strengths of the parts of the model are not cut off. -/
theorem strengthOf_eq (hp : InRange (p * unit)) {i : Nat} (hi : i < p) :
    strengthOf (Int.ofNat i + 1) = (Int.ofNat i + 1) * unit :=
  saturate_of_inRange (inRange_strength hp hi)

/-- A strength is that of one of the parts. -/
theorem mem_strengths (hp : InRange (p * unit)) {m : Nat} (hm : m < p) {x : Int} :
    x ∈ strengths m ↔ ∃ i ≤ m, x = (Int.ofNat i + 1) * unit := by
  induction m with
  | zero =>
      rw [strengths, Domain.mem_ofValues, List.mem_singleton]
      constructor
      · rintro ⟨_, rfl⟩
        exact ⟨0, Nat.le_refl 0, rfl⟩
      · rintro ⟨i, hi, rfl⟩
        obtain rfl := Nat.le_zero.mp hi
        exact ⟨by decide, rfl⟩
  | succ m ih =>
      -- within the range the product does not saturate, so each part adds its own strength
      rw [strengths, Domain.mem_union, ih (by omega), strengthOf_eq hp hm, Domain.mem_between]
      constructor
      · rintro (⟨i, hi, rfl⟩ | ⟨_, hle, hge⟩)
        · exact ⟨i, by omega, rfl⟩
        · exact ⟨m + 1, Nat.le_refl _, Int.le_antisymm hge hle⟩
      · rintro ⟨i, hi, rfl⟩
        rcases Nat.lt_succ_iff_lt_or_eq.mp (Nat.lt_succ_of_le hi) with hlt | rfl
        · exact Or.inl ⟨i, by omega, rfl⟩
        · exact Or.inr ⟨inRange_strength hp hm, Int.le_refl _, Int.le_refl _⟩

end Values

/-! ## The plan -/

/-- After the parts there is a strength for every decision variable, and after each of them an
    anonymous flag for every part. -/
def attributes (p : Nat) : Extras where
  label k := if k % (p + 1) = 0 then some (numbered "x" (k / (p + 1)) ".strength") else none
  domain k := if k % (p + 1) = 0 then strengths (p - 1) else .between 0 1
  distinct {i j _} hi hj := by
    obtain ⟨hmod, ⟨⟩⟩ := Option.ite_none_right_eq_some.mp hi
    obtain ⟨hmod', hname⟩ := Option.ite_none_right_eq_some.mp hj
    have hquotient :=
      (numbered_inj (by decide) (by decide) (by decide) (by decide) (Option.some.inj hname)).1
    rw [← Nat.div_add_mod i (p + 1), ← Nat.div_add_mod j (p + 1), hmod, hmod', hquotient]
  unreserved h := by
    obtain ⟨_, ⟨⟩⟩ := Option.ite_none_right_eq_some.mp h
    exact isReserved_numbered (c := 'x') rfl (by decide)
  apart h j := by
    obtain ⟨_, ⟨⟩⟩ := Option.ite_none_right_eq_some.mp h
    refine ⟨fun h => ?_, fun h => ?_⟩ <;>
      exact absurd (numbered_inj (by decide) (by decide) (by decide) (by decide) h).2 (by decide)

/-- The strength of a decision variable. -/
def strength (number n p j : Nat) : Variable := extra number n p (j * (p + 1))

/-- Whether a decision variable holds a part. -/
def flag (number n p j i : Nat) : Variable := extra number n p (j * (p + 1) + (i + 1))

section Positions

variable {n p i j k : Nat}

/-- The position of a flag tells its decision variable. -/
theorem flag_div (hi : i < p) : (j * (p + 1) + (i + 1)) / (p + 1) = j := by
  rw [Nat.mul_comm, Nat.mul_add_div (Nat.succ_pos p), Nat.div_eq_of_lt (by omega), Nat.add_zero]

/-- The position of a flag tells its part. -/
theorem flag_mod (hi : i < p) : (j * (p + 1) + (i + 1)) % (p + 1) = i + 1 := by
  rw [Nat.mul_add_mod', Nat.mod_eq_of_lt (by omega)]

/-- No flag is at the position of a strength. -/
theorem flag_mod_ne (hi : i < p) : (j * (p + 1) + (i + 1)) % (p + 1) ≠ 0 :=
  (flag_mod hi).trans_ne (Nat.succ_ne_zero i)

/-- A strength is named after its decision variable. -/
theorem label_strength :
    (attributes p).label (j * (p + 1)) = some (numbered "x" j ".strength") := by
  refine (if_pos (Nat.mul_mod_left j (p + 1))).trans ?_
  rw [Nat.mul_div_cancel _ (Nat.succ_pos p)]

/-- A strength may be that of any part. -/
theorem domain_strength : (attributes p).domain (j * (p + 1)) = strengths (p - 1) :=
  if_pos (Nat.mul_mod_left j (p + 1))

/-- Flags are anonymous. -/
theorem label_flag (hi : i < p) : (attributes p).label (j * (p + 1) + (i + 1)) = none :=
  if_neg (flag_mod_ne hi)

/-- Flags are declared with 0 and 1. -/
theorem domain_flag (hi : i < p) :
    (attributes p).domain (j * (p + 1) + (i + 1)) = .between 0 1 :=
  if_neg (flag_mod_ne hi)

/-- The strengths and flags come before those of the next decision variable. -/
theorem position_lt (hj : j < n) (hi : i ≤ p) : j * (p + 1) + i < n * (p + 1) := by
  have hnext : j * (p + 1) + (p + 1) ≤ n * (p + 1) := by
    rw [← Nat.succ_mul]
    exact Nat.mul_le_mul_right _ hj
  omega

theorem strength_lt (hj : j < n) : n + p + j * (p + 1) < n + p + n * (p + 1) :=
  Nat.add_lt_add_left (position_lt hj (Nat.zero_le p)) _

/-- Every position is that of a strength or of a flag. -/
theorem exists_position (hk : k < n * (p + 1)) :
    ∃ j < n, k = j * (p + 1) ∨ ∃ i < p, k = j * (p + 1) + (i + 1) := by
  refine ⟨k / (p + 1), Nat.div_lt_of_lt_mul (Nat.mul_comm n (p + 1) ▸ hk), ?_⟩
  have hsplit := Nat.div_add_mod' k (p + 1)
  have hlt : k % (p + 1) < p + 1 := Nat.mod_lt k (Nat.succ_pos p)
  cases hmod : k % (p + 1) with
  | zero => exact Or.inl (by omega)
  | succ i => exact Or.inr ⟨i, by omega, by omega⟩

end Positions

/-! ## The constraints -/

section Build

variable (number n p : Nat)

/-- The flag tells whether the strength is that of the part. -/
def valued (j i : Nat) : Constraint :=
  .reified (.equality (strength number n p j) .equal (.constant (strengthOf (Int.ofNat i + 1))))
    (flag number n p j i)

/-- The flag tells whether the variable holds the part. -/
def held (j i : Nat) : Constraint :=
  .reified (.equality (decision number j) .equal (.variable (part number n i)))
    (flag number n p j i)

/-- If the variable holds the part, its strength reaches the threshold. -/
def required (threshold : Int) (j i : Nat) : Constraint :=
  .ifThen (.equality (decision number j) .equal (.variable (part number n i)))
    (.ordering (strength number n p j) .greaterOrEqual (.constant threshold))

/-- What ties the strength of a variable to the first parts. -/
def channels (j i : Nat) : List Constraint :=
  (List.range i).flatMap fun i => [valued number n p j i, held number n p j i]

/-- The facts about the first decision variables. -/
def facts (j : Nat) : List Constraint := (List.range j).flatMap fun j => channels number n p j p

/-- The query about the first decision variables. -/
def query (threshold : Int) (j : Nat) : List Constraint :=
  (List.range j).flatMap fun j => (List.range p).map (required number n p threshold j)

/-- All constraints of the model. -/
def constraints (threshold : Option Int) : List Constraint :=
  facts number n p n ++ threshold.elim [] fun t => query number n p t n

/-- The assignment is a solution of the plan. -/
def Solves (threshold : Option Int) (σ : Assignment) : Prop :=
  (plan number n p (attributes p)).Solved (n + p + n * (p + 1))
    (constraints number n p threshold) σ

variable {number n p} {s : Store} {i j k : Nat} {threshold : Option Int}

/-- An equality of declared variables, reified by a flag. -/
theorem admits_reified (hi : i < p) (hk : n + p + (j * (p + 1) + (i + 1)) < k) {x : Variable}
    {rhs : Term} (hdeclared : ∀ v ∈ occurrences (.equality x .equal rhs),
      ∃ m < k, v = (plan number n p (attributes p)).handle m) :
    (plan number n p (attributes p)).Admits k
      (.reified (.equality x .equal rhs) (flag number n p j i)) := by
  refine ⟨fun v hv => ?_, fun b hb x hx => ?_, fun offset hoffset => nomatch hoffset⟩
  · rcases List.mem_append.mp hv with hv | hv
    · exact hdeclared v hv
    · exact ⟨_, hk, List.mem_singleton.mp hv⟩
  · obtain rfl : b = flag number n p j i := List.mem_singleton.mp hb
    have hdomain : (plan number n p (attributes p)).domain (flag number n p j i).index = _ :=
      domain_extra.trans (domain_flag hi)
    have hbounds := Domain.mem_between.mp (hdomain ▸ hx)
    omega

/-- The first fact about a flag refers to variables declared before. -/
theorem admits_valued (hi : i < p) (hk : n + p + (j * (p + 1) + (i + 1)) < k) :
    (plan number n p (attributes p)).Admits k (valued number n p j i) := by
  refine admits_reified hi hk fun v hv => ?_
  obtain rfl := List.mem_singleton.mp hv
  exact ⟨_, by omega, rfl⟩

/-- The second fact about a flag refers to variables declared before. -/
theorem admits_held (hj : j < n) (hi : i < p) (hk : n + p + (j * (p + 1) + (i + 1)) < k) :
    (plan number n p (attributes p)).Admits k (held number n p j i) := by
  refine admits_reified hi hk fun v hv => ?_
  rcases List.mem_pair.mp hv with rfl | rfl
  · exact ⟨j, by omega, rfl⟩
  · exact ⟨n + i, by omega, rfl⟩

/-- What is required refers to variables of the plan. -/
theorem admits_required (hj : j < n) (hi : i < p) (t : Int) :
    (plan number n p (attributes p)).Admits (n + p + n * (p + 1)) (required number n p t j i) := by
  refine ⟨fun v hv => ?_, (fun b hb => nomatch hb), fun offset hoffset => nomatch hoffset⟩
  rcases List.mem_append.mp hv with hv | hv
  · rcases List.mem_pair.mp hv with rfl | rfl
    · exact ⟨j, by omega, rfl⟩
    · exact ⟨n + i, by omega, rfl⟩
  · obtain rfl := List.mem_singleton.mp hv
    exact ⟨_, strength_lt hj, rfl⟩

/-! ## Building -/

/-- One part more ties the strength by two facts more. -/
theorem channels_succ (number n p j i : Nat) : channels number n p j (i + 1) =
    channels number n p j i ++ [valued number n p j i] ++ [held number n p j i] := by
  rw [channels, channels, List.range_succ, List.flatMap_append, List.flatMap_singleton,
    List.append_assoc]
  rfl

/-- The facts about one decision variable more come last. -/
theorem facts_succ (number n p j : Nat) :
    facts number n p (j + 1) = facts number n p j ++ channels number n p j p := by
  rw [facts, facts, List.range_succ, List.flatMap_append, List.flatMap_singleton]

/-- What is imposed in the middle of the facts. -/
theorem channels_prefix (number : Nat) (threshold : Option Int) (hj : j < n) (hi : i ≤ p) :
    facts number n p j ++ channels number n p j i <+: constraints number n p threshold := by
  have hchannels : channels number n p j i <+: channels number n p j p :=
    (Build.range_prefix hi).flatMap _
  have hfacts : facts number n p (j + 1) <+: facts number n p n :=
    (Build.range_prefix hj).flatMap _
  rw [facts_succ] at hfacts
  exact (((List.prefix_append_right_inj _).mpr hchannels).trans hfacts).trans
    (List.prefix_append _ _)

/-- A flag is declared for the next part, and channelled. -/
theorem leadsTo_channel (hj : j < n) (hi : i < p)
    (hroom : (constraints number n p threshold).length ≤ ConstraintId.limit)
    (h : Stage (plan number n p (attributes p)) (n + p + (j * (p + 1) + (i + 1)))
      (facts number n p j ++ channels number n p j i) s) :
    (do
      let holdsPart ← Build.boolean
      Build.impose (.reified
        (.equality (strength number n p j) .equal (.constant (strengthOf (Int.ofNat i + 1))))
        holdsPart)
      Build.impose (.reified
        (.equality (decision number j) .equal (.variable (part number n i))) holdsPart)
      : Build Unit).LeadsTo s
      (fun _ t => Stage (plan number n p (attributes p)) (n + p + (j * (p + 1) + (i + 1 + 1)))
        (facts number n p j ++ channels number n p j (i + 1)) t)
      (∀ σ, ¬ Solves number n p threshold σ) := by
  have hprefix := channels_prefix number threshold hj (Nat.succ_le_of_lt hi)
  rw [channels_succ, ← List.append_assoc, ← List.append_assoc] at hprefix ⊢
  have hposition : n + p + (j * (p + 1) + (i + 1)) + 1 ≤ n + p + n * (p + 1) := by
    have := position_lt hj (Nat.succ_le_of_lt hi)
    omega
  refine (Build.leadsTo_boolean h (label_extra.trans (label_flag hi))
    (domain_extra.trans (domain_flag hi))).bind fun b t ht => ?_
  obtain ⟨rfl, ht⟩ := ht
  refine (Build.leadsTo_impose ht (admits_valued hi (Nat.lt_succ_self _)) hposition
    ((List.prefix_append _ _).trans hprefix) hroom).bind fun _ u hu => ?_
  exact Build.leadsTo_impose hu (admits_held hj hi (Nat.lt_succ_self _)) hposition hprefix hroom

/-- The domain of a strength grows by one part at a time, before it is constrained. -/
theorem leadsTo_growStrength (hp : InRange (p * unit)) {cs : List Constraint} {hopeless : Prop}
    (h : Stage (plan number n p (attributes p)) (n + p + j * (p + 1)) cs s) {t : Store}
    (ht : Opened s ((plan number n p (attributes p)).label (n + p + j * (p + 1)))
      (strengths 0) t) :
    Build.LeadsTo ((numbers p).tail.forM fun m =>
        Build.extend (strength number n p j) (strengthOf m)) t
      (fun _ u => Stage (plan number n p (attributes p)) (n + p + j * (p + 1) + 1) cs u)
      hopeless := by
  refine (Build.leadsTo_forM (fun i t => Opened s
    ((plan number n p (attributes p)).label (n + p + j * (p + 1))) (strengths i) t)
    (fun i hi t ht => ?_) ht).mono (fun _ u hu => ?_) id
  · have hlt : i + 1 < p := by
      rw [List.length_tail, length_numbers] at hi
      omega
    rw [List.getElem_tail, getElem_numbers]
    refine Build.leadsTo_extend h ht ?_
    rw [strengthOf_eq hp hlt]
    exact inRange_strength hp hlt
  · have hdomain : (plan number n p (attributes p)).domain (n + p + j * (p + 1)) = _ :=
      domain_extra.trans domain_strength
    rw [List.length_tail, length_numbers, ← hdomain] at hu
    exact h.opened hu

/-- **THE FACTS** about the next decision variable. -/
theorem leadsTo_declareStrength (hp : InRange (p * unit)) (hj : j < n)
    (hroom : (constraints number n p threshold).length ≤ ConstraintId.limit)
    (h : Stage (plan number n p (attributes p)) (n + p + j * (p + 1)) (facts number n p j) s) :
    (declareStrength ⟨n, p⟩ ((List.range p).map (part number n)) j (decision number j)).LeadsTo s
      (fun v t => v = strength number n p j ∧
        Stage (plan number n p (attributes p)) (n + p + (j + 1) * (p + 1))
          (facts number n p (j + 1)) t)
      (∀ σ, ¬ Solves number n p threshold σ) := by
  have hunit : unit ∈ Domain.ofValues [unit] := Domain.mem_ofValues.mpr (by decide)
  have hname : "x" ++ toString j ++ ".strength" = numbered "x" j ".strength" := rfl
  rw [declareStrength, hname]
  refine (Build.leadsTo_sparse h (label_extra.trans label_strength) hunit).bind fun v t ht => ?_
  obtain ⟨rfl, ht⟩ := ht
  refine (leadsTo_growStrength hp h ht).bind fun _ t ht => ?_
  refine (Build.leadsTo_forM (fun i t => Stage (plan number n p (attributes p))
    (n + p + (j * (p + 1) + (i + 1))) (facts number n p j ++ channels number n p j i) t)
    (fun i hi t ht => ?_) ?_).bind fun _ t ht => ?_
  · have hip : i < p := by simpa [length_numbers] using hi
    simp only [List.getElem_zip, List.getElem_map, List.getElem_range, getElem_numbers]
    exact leadsTo_channel hj hip hroom ht
  · rw [channels, List.range_zero, List.flatMap_nil, List.append_nil]
    exact ht
  · rw [List.length_zip, length_numbers, List.length_map, List.length_range, Nat.min_self,
      ← facts_succ] at ht
    exact Build.leadsTo_pure ⟨rfl, Nat.succ_mul j (p + 1) ▸ ht⟩

/-- The query about one decision variable more comes last. -/
theorem query_succ (number n p : Nat) (t : Int) (j : Nat) :
    query number n p t (j + 1) =
      query number n p t j ++ (List.range p).map (required number n p t j) := by
  rw [query, query, List.range_succ, List.flatMap_append, List.flatMap_singleton]

/-- What is imposed in the middle of the query. -/
theorem query_prefix (number : Nat) (t : Int) (hj : j < n) (hi : i ≤ p) :
    facts number n p n ++ (query number n p t j ++ (List.range i).map (required number n p t j))
      <+: constraints number n p (some t) := by
  have hrow : (List.range i).map (required number n p t j) <+:
      (List.range p).map (required number n p t j) := (Build.range_prefix hi).map _
  have hquery : query number n p t (j + 1) <+: query number n p t n :=
    (Build.range_prefix hj).flatMap _
  rw [query_succ] at hquery
  exact (List.prefix_append_right_inj _).mpr
    (((List.prefix_append_right_inj _).mpr hrow).trans hquery)

/-- **THE QUERY** about the next decision variable. -/
theorem leadsTo_requireStrength {t : Int} (hj : j < n)
    (hroom : (constraints number n p (some t)).length ≤ ConstraintId.limit)
    (h : Stage (plan number n p (attributes p)) (n + p + n * (p + 1))
      (facts number n p n ++ query number n p t j) s) :
    (requireStrength t ((List.range p).map (part number n)) (decision number j)
      (strength number n p j)).LeadsTo s
      (fun _ u => Stage (plan number n p (attributes p)) (n + p + n * (p + 1))
        (facts number n p n ++ query number n p t (j + 1)) u)
      (∀ σ, ¬ Solves number n p (some t) σ) := by
  rw [requireStrength]
  refine (Build.leadsTo_forM (fun i u => Stage (plan number n p (attributes p))
    (n + p + n * (p + 1))
    (facts number n p n ++ (query number n p t j ++ (List.range i).map (required number n p t j)))
    u) (fun i hi u hu => ?_) ?_).mono (fun _ u hu => ?_) id
  · have hip : i < p := by simpa using hi
    have hprefix := query_prefix number t hj (Nat.succ_le_of_lt hip)
    rw [List.range_succ, List.map_append, List.map_singleton, ← List.append_assoc,
      ← List.append_assoc] at hprefix ⊢
    rw [← List.append_assoc] at hu
    simp only [List.getElem_map, List.getElem_range]
    exact Build.leadsTo_impose hu (admits_required hj hip t) (Nat.le_refl _) hprefix hroom
  · rwa [List.range_zero, List.map_nil, List.append_nil]
  · rwa [List.length_map, List.length_range, ← query_succ] at hu

/-- There are two facts for each pair of a decision variable and a part, and with a threshold
    there is a third one. -/
theorem length_constraints (number n p : Nat) (threshold : Option Int) :
    (constraints number n p threshold).length = n * p * if threshold.isSome then 3 else 2 := by
  have hfacts : (facts number n p n).length = n * p * 2 := by
    simp [facts, channels, List.length_flatMap, Nat.mul_assoc]
  cases threshold with
  | none => rw [constraints, Option.elim_none, List.append_nil, hfacts]; rfl
  | some t =>
      have hquery : (query number n p t n).length = n * p := by simp [query, List.length_flatMap]
      rw [constraints, Option.elim_some, List.length_append, hfacts, hquery, ← Nat.mul_succ]
      rfl

/-- **THE BUILD** comes to the end of its plan, or the plan has no solution. -/
theorem leadsTo_build (number : Nat) (listensTo : Option Level) (hp : InRange (p * unit))
    (hp0 : p ≠ 0) (hroom : (constraints number n p threshold).length ≤ ConstraintId.limit) :
    (build ⟨n, p⟩ threshold).LeadsTo (.empty number listensTo)
      (fun vs t =>
        vs = (List.range n).map (decision number) ++ (List.range n).map (strength number n p) ∧
          Stage (plan number n p (attributes p)) (n + p + n * (p + 1))
            (constraints number n p threshold) t)
      (∀ σ, ¬ Solves number n p threshold σ) := by
  rw [build]
  refine (leadsTo_declareVariables (inRange_count hp) hp0
    (.empty (plan number n p (attributes p)) listensTo)).bind fun vs s hs => ?_
  obtain ⟨rfl, hs⟩ := hs
  refine (leadsTo_declareParts (inRange_count hp) hs).bind fun vs s hs => ?_
  obtain ⟨rfl, hs⟩ := hs
  refine (Build.leadsTo_mapM (fun j t => Stage (plan number n p (attributes p))
    (n + p + j * (p + 1)) (facts number n p j) t) (strength number n p)
    (fun j hj t ht => ?_) ?_).bind fun vs s hs => ?_
  · have hjn : j < n := by simpa using hj
    simp only [List.getElem_zipIdx, List.getElem_map, List.getElem_range, Nat.zero_add]
    exact leadsTo_declareStrength hp hjn hroom ht
  · rw [Nat.zero_mul]
    exact hs
  · rw [List.length_zipIdx, List.length_map, List.length_range] at hs
    obtain ⟨rfl, hs⟩ := hs
    cases threshold with
    | none =>
        rw [constraints, Option.elim_none, List.append_nil]
        exact (Build.leadsTo_finished hs).bind fun _ s hs => Build.leadsTo_pure ⟨rfl, hs⟩
    | some t =>
        refine (Build.leadsTo_forM (fun j u => Stage (plan number n p (attributes p))
          (n + p + n * (p + 1)) (facts number n p n ++ query number n p t j) u)
          (fun j hj u hu => ?_) ?_).bind fun _ s hs => ?_
        · have hjn : j < n := by simpa using hj
          simp only [List.getElem_zip, List.getElem_map, List.getElem_range]
          exact leadsTo_requireStrength hjn hroom hu
        · rw [query, List.range_zero, List.flatMap_nil, List.append_nil]
          exact hs
        · rw [List.length_zip, List.length_map, List.length_map, List.length_range,
            Nat.min_self] at hs
          exact (Build.leadsTo_finished hs).bind fun _ s hs => Build.leadsTo_pure ⟨rfl, hs⟩

end Build

/-! ## The solutions -/

section Solutions

variable {number n p : Nat} {threshold : Option Int} {σ : Assignment}

/-- **WHAT THE VALUES** of the decision variables, the strengths and the flags have to do with
    each other. -/
structure Attributed (n p : Nat) (threshold : Option Int) (decision strength : Nat → Int)
    (flag : Nat → Nat → Int) : Prop where
  parts : ∀ j < n, 1 ≤ decision j ∧ decision j ≤ p
  strengths : ∀ j < n, strength j = decision j * unit
  flags : ∀ j < n, ∀ i < p, flag j i = if decision j = Int.ofNat i + 1 then 1 else 0
  enough : ∀ t ∈ threshold, ∀ j < n, t ≤ decision j * unit

/-- The constraints are two facts for each pair of a decision variable and a part, and what the
    threshold requires of it. -/
theorem forall_constraints {P : Constraint → Prop} :
    (∀ c ∈ constraints number n p threshold, P c) ↔
      (∀ j < n, ∀ i < p, P (valued number n p j i) ∧ P (held number n p j i)) ∧
        ∀ t ∈ threshold, ∀ j < n, ∀ i < p, P (required number n p t j i) := by
  have hfacts : (∀ c ∈ facts number n p n, P c) ↔
      ∀ j < n, ∀ i < p, P (valued number n p j i) ∧ P (held number n p j i) := by
    simp only [facts, channels, List.forall_mem_flatMap, List.mem_range, List.forall_mem_cons,
      List.not_mem_nil, false_implies, implies_true, and_true]
  cases threshold with
  | none => simp [constraints, hfacts]
  | some t =>
      simp only [constraints, Option.elim_some, List.forall_mem_append, hfacts, query,
        List.forall_mem_flatMap, List.forall_mem_map, List.mem_range, Option.mem_some_iff,
        forall_eq']

/-- The flag is 1 where the strength is that of the part, and else 0. -/
theorem holds_valued {i j : Nat} :
    (valued number n p j i).holds σ = true ↔
      (σ (flag number n p j i) = 1 ∧
          σ (strength number n p j) = strengthOf (Int.ofNat i + 1)) ∨
        (σ (flag number n p j i) = 0 ∧
          σ (strength number n p j) ≠ strengthOf (Int.ofNat i + 1)) := by
  rw [valued, holds_reified_equality, Term.value]

/-- The flag is 1 where the decision variable holds the part, and else 0. -/
theorem holds_held {i j : Nat} :
    (held number n p j i).holds σ = true ↔
      (σ (flag number n p j i) = 1 ∧ σ (decision number j) = σ (part number n i)) ∨
        (σ (flag number n p j i) = 0 ∧ σ (decision number j) ≠ σ (part number n i)) :=
  holds_reified_equality

/-- What is required holds exactly if a part that is held is strong enough. -/
theorem holds_required {t : Int} {i j : Nat} :
    (required number n p t j i).holds σ = true ↔
      (σ (decision number j) = σ (part number n i) → t ≤ σ (strength number n p j)) := by
  rw [imp_iff_not_or]
  simp [required, holds, EqualityRelation.relates, OrderRelation.relates, Term.value]

/-- Such strengths and flags are drawn from the domains of the plan. -/
theorem Attributed.draws (hp : InRange (p * unit))
    (h : Attributed n p threshold (fun j => σ (decision number j))
      (fun j => σ (strength number n p j)) fun j i => σ (flag number n p j i)) {k : Nat}
    (hk : k < n * (p + 1)) : σ (extra number n p k) ∈ (attributes p).domain k := by
  obtain ⟨j, hj, rfl | ⟨i, hi, rfl⟩⟩ := exists_position hk
  · obtain ⟨i, hi, hdecision⟩ := exists_part (h.parts j hj)
    rw [domain_strength, mem_strengths hp (by omega)]
    exact ⟨i, by omega, hdecision ▸ h.strengths j hj⟩
  · have hflag : σ (extra number n p (j * (p + 1) + (i + 1))) = _ := h.flags j hj i hi
    rw [domain_flag hi, hflag, Domain.mem_between]
    split <;> decide

/-- **THE SOLUTIONS OF THE PLAN** attribute its strength to every part. -/
theorem solves_iff (hp : InRange (p * unit)) :
    Solves number n p threshold σ ↔
      (∀ i < p, σ (part number n i) = Int.ofNat i + 1) ∧
        Attributed n p threshold (fun j => σ (decision number j))
          (fun j => σ (strength number n p j)) fun j i => σ (flag number n p j i) := by
  rw [Solves, Plan.Solved, draws_iff (inRange_count hp), forall_constraints]
  simp only [holds_valued, holds_held, holds_required]
  constructor
  · rintro ⟨⟨hparts, hpart, _⟩, hfacts, hquery⟩
    have hflags : ∀ j < n, ∀ i < p, σ (flag number n p j i) =
        if σ (decision number j) = Int.ofNat i + 1 then 1 else 0 := by
      intro j hj i hi
      have hheld := (hfacts j hj i hi).2
      rw [hpart i hi] at hheld
      rcases hheld with ⟨hflag, heq⟩ | ⟨hflag, hne⟩
      · rw [hflag, if_pos heq]
      · rw [hflag, if_neg hne]
    have hstrengths : ∀ j < n, σ (strength number n p j) = σ (decision number j) * unit := by
      intro j hj
      obtain ⟨i, hi, hdecision⟩ := exists_part (hparts j hj)
      -- the flag of the part that is held is 1
      have hflag : σ (flag number n p j i) = 1 := (hflags j hj i hi).trans (if_pos hdecision)
      rcases (hfacts j hj i hi).1 with ⟨_, heq⟩ | ⟨hzero, _⟩
      · rw [heq, strengthOf_eq hp hi, hdecision]
      · exact absurd (hflag.symm.trans hzero) (by decide)
    refine ⟨hpart, hparts, hstrengths, hflags, fun t ht j hj => ?_⟩
    obtain ⟨i, hi, hdecision⟩ := exists_part (hparts j hj)
    exact hstrengths j hj ▸ hquery t ht j hj i hi (hdecision.trans (hpart i hi).symm)
  · rintro ⟨hpart, hattributed⟩
    refine ⟨⟨hattributed.parts, hpart, fun k hk => hattributed.draws hp hk⟩, fun j hj i hi => ?_,
      fun t ht j hj i hi _ => ?_⟩
    · rw [hpart i hi, hattributed.flags j hj i hi, hattributed.strengths j hj, strengthOf_eq hp hi]
      by_cases heq : σ (decision number j) = Int.ofNat i + 1
      · rw [if_pos heq, heq]
        exact ⟨Or.inl ⟨rfl, rfl⟩, Or.inl ⟨rfl, rfl⟩⟩
      · rw [if_neg heq]
        refine ⟨Or.inr ⟨rfl, fun hunit => heq ?_⟩, Or.inr ⟨rfl, heq⟩⟩
        exact Int.eq_of_mul_eq_mul_right (by decide) hunit
    · exact hattributed.strengths j hj ▸ hattributed.enough t ht j hj

/-- The strengths and flags that follow from a tuple of parts. -/
def ratings (p : Nat) (xs : List Int) (k : Nat) : Int :=
  if k % (p + 1) = 0 then xs[k / (p + 1)]?.getD 0 * unit
  else if xs[k / (p + 1)]?.getD 0 = Int.ofNat (k % (p + 1) - 1) + 1 then 1 else 0

section Ratings

variable {xs : List Int} {i j : Nat} (hj : j < xs.length)

include hj

/-- The strength that follows is that of the part which is held. -/
theorem ratings_strength : ratings p xs (j * (p + 1)) = xs[j] * unit := by
  rw [ratings, if_pos (Nat.mul_mod_left j (p + 1)), Nat.mul_div_cancel _ (Nat.succ_pos p),
    List.getElem?_eq_getElem hj, Option.getD_some]

/-- The flags that follow say which part is held. -/
theorem ratings_flag (hi : i < p) :
    ratings p xs (j * (p + 1) + (i + 1)) = if xs[j] = Int.ofNat i + 1 then 1 else 0 := by
  rw [ratings, if_neg (flag_mod_ne hi), flag_div hi, flag_mod hi, Nat.add_sub_cancel,
    List.getElem?_eq_getElem hj, Option.getD_some]

end Ratings

/-- A tuple of strong enough parts with their strengths is that of a solution. -/
theorem exists_solves (hp : InRange (p * unit)) {xs : List Int} (hlength : xs.length = n)
    (hxs : ∀ x ∈ xs, 1 ≤ x ∧ x ≤ p ∧ ∀ t ∈ threshold, t ≤ x * unit) :
    ∃ σ, Solves number n p threshold σ ∧ xs ++ xs.map (· * unit) =
      ((List.range n).map (decision number) ++ (List.range n).map (strength number n p)).map σ := by
  let σ : Assignment := assignment n p xs (ratings p xs)
  have hdecision : ∀ j (hj : j < xs.length), σ (decision number j) = xs[j] := fun j hj =>
    assignment_decision hlength hj
  have hstrength : ∀ j (hj : j < xs.length), σ (strength number n p j) = xs[j] * unit :=
    fun j hj => assignment_extra.trans (ratings_strength hj)
  refine ⟨σ, (solves_iff hp).mpr ⟨fun i hi => assignment_part hi, fun j hj => ?_, fun j hj => ?_,
    fun j hj i hi => ?_, fun t ht j hj => ?_⟩, ?_⟩
  · rw [hdecision j (hlength ▸ hj)]
    exact ⟨(hxs _ (List.getElem_mem _)).1, (hxs _ (List.getElem_mem _)).2.1⟩
  · rw [hdecision j (hlength ▸ hj), hstrength j (hlength ▸ hj)]
  · rw [hdecision j (hlength ▸ hj)]
    exact assignment_extra.trans (ratings_flag _ hi)
  · rw [hdecision j (hlength ▸ hj)]
    exact (hxs _ (List.getElem_mem _)).2.2 t ht
  · rw [List.map_append, map_assignment hlength]
    refine congrArg (xs ++ ·) (List.ext_getElem (by simp [hlength]) fun j hj _ => ?_)
    rw [List.length_map] at hj
    rw [List.getElem_map, List.getElem_map, List.getElem_map, List.getElem_range, hstrength j hj]

/-- **THE TUPLES OF THE SOLUTIONS** are those of strong enough parts with their strengths. -/
theorem exists_solves_iff {tuple : List Int} (hp : InRange (p * unit)) :
    (∃ σ, Solves number n p threshold σ ∧ tuple =
      ((List.range n).map (decision number) ++ (List.range n).map (strength number n p)).map σ) ↔
      ∃ xs : List Int, xs.length = n ∧
        (∀ x ∈ xs, 1 ≤ x ∧ x ≤ p ∧ ∀ t ∈ threshold, t ≤ x * unit) ∧
          tuple = xs ++ xs.map (· * unit) := by
  constructor
  · rintro ⟨σ, hσ, rfl⟩
    obtain ⟨_, hattributed⟩ := (solves_iff hp).mp hσ
    refine ⟨(List.range n).map fun j => σ (decision number j), by simp, fun x hx => ?_, ?_⟩
    · obtain ⟨j, hj, rfl⟩ := List.mem_map.mp hx
      have hjn := List.mem_range.mp hj
      exact ⟨(hattributed.parts j hjn).1, (hattributed.parts j hjn).2,
        fun t ht => hattributed.enough t ht j hjn⟩
    · rw [List.map_append, List.map_map, List.map_map, List.map_map]
      refine congrArg _ (List.map_congr_left fun j hj => ?_)
      exact hattributed.strengths j (List.mem_range.mp hj)
  · rintro ⟨xs, hlength, hxs, rfl⟩
    exact exists_solves hp hlength hxs

end Solutions

/-! ## A threshold out of reach -/

section Stability

variable {number n p : Nat} {s : Store} {t : Int}

/-- A threshold above all values is known not to be reached. -/
theorem entailment_violated_of_lt {F : Family} {x : Variable} (hx : ∃ v, v ∈ F x)
    (hlt : ∀ v ∈ F x, v < t) :
    entailment F (.ordering x .greaterOrEqual (.constant t)) = .violated := by
  have hlower := hlt _ (Domain.lowerBound_mem hx)
  have hupper := hlt _ (Domain.upperBound_mem hx)
  rw [entailment, orderEntailment_eq_violated]
  simp only [OrderRelation.normalForm, Term.lowerBound, Term.upperBound, reduceCtorEq, if_false]
  omega

/-- If what follows from an equality is violated, a fixed value on one side has been taken out
    of the other. -/
theorem notMem_of_stable_ifThen {x y : Variable} {c : Constraint} {D : Domains}
    (hsuit : Suits D.get (.ifThen (.equality x .equal (.variable y)) c))
    (hviolated : entailment D.get c = .violated)
    (h : Stable (.ifThen (.equality x .equal (.variable y)) c) D) {v : Int}
    (hy : (D.get y).fixedValue? = some v) : v ∉ D.get x := by
  obtain ⟨hconsequent, hantecedent⟩ := stable_ifThen_iff.mp h
  cases hverdict : entailment D.get (.equality x .equal (.variable y)) with
  | satisfied =>
      have hnot := not_stable_of_violated c hsuit.consequent hviolated
      exact absurd (hconsequent hverdict) hnot
  | violated =>
      obtain ⟨_, hall⟩ := equalityEntailment_variable_eq_violated.mp hverdict
      exact fun hx => hall v hx (Domain.fixedValue?_eq_some.mp hy).1
  | unknown =>
      have hsuits : Suits D.get (.equality x .notEqual (.variable y)) := hsuit.antecedent.negation
      have hstable : Stable (.equality x .notEqual (.variable y)) D :=
        hantecedent hverdict hviolated
      rw [Stable, Constraint.propagate, idle_equality_iff hsuits.inhabited] at hstable
      obtain ⟨_, _, hapart⟩ := hstable
      exact Int.add_zero v ▸ hapart v hy

/-- **THE THRESHOLD IS IN REACH**, if the whole plan has been carried out. -/
theorem threshold_reached (hp : InRange (p * unit)) (hn0 : n ≠ 0) (hp0 : 0 < p)
    (h : Stage (plan number n p (attributes p)) (n + p + n * (p + 1))
      (constraints number n p (some t)) s) : t ≤ p * unit := by
  by_contra hlt
  have hinhabited : ∀ k < n + p + n * (p + 1), ∃ x,
      x ∈ s.domains.get ((plan number n p (attributes p)).handle k) := fun k hk =>
    h.fixpoint.inhabited _ (h.mem_allVariables_iff.mpr ⟨k, hk, rfl⟩)
  have hfirst : n + p + 0 * (p + 1) < n + p + n * (p + 1) := strength_lt (Nat.pos_of_ne_zero hn0)
  -- no strength of the first variable reaches the threshold
  have hbelow : ∀ v ∈ s.domains.get (strength number n p 0), v < t := by
    intro v hv
    have hplanned := h.shrinks _ hfirst v hv
    rw [domain_extra, domain_strength, mem_strengths hp (Nat.sub_lt hp0 (by decide))] at hplanned
    obtain ⟨i, hi, rfl⟩ := hplanned
    have hle : (Int.ofNat i + 1) * unit ≤ p * unit := by
      refine Int.mul_le_mul_of_nonneg_right ?_ (by decide)
      simp only [Int.ofNat_eq_natCast]
      omega
    exact Int.lt_of_le_of_lt hle (Int.not_le.mp hlt)
  obtain ⟨x, hx⟩ := hinhabited 0 (by omega)
  have hbounds := h.shrinks 0 (by omega) x hx
  rw [domain_decision (Nat.pos_of_ne_zero hn0), mem_numbers (inRange_count hp)] at hbounds
  obtain ⟨i, hi, rfl⟩ := exists_part hbounds
  have hpart : (s.domains.get (part number n i)).fixedValue? = some (Int.ofNat i + 1) := by
    refine h.fixed (i := n + i) (by omega) fun v hv => ?_
    rwa [domain_part hi, mem_number (inRange_count hp) hi] at hv
  obtain ⟨hsuits, hstable⟩ := (forall_constraints.mp fun c hc => h.stable hc).2 t rfl 0
    (Nat.pos_of_ne_zero hn0) i hi
  have hviolated := entailment_violated_of_lt (hinhabited _ hfirst) hbelow
  exact notMem_of_stable_ifThen hsuits hviolated hstable hpart hx

end Stability

/-! ## The model -/

/-- The scope has the decision variables and their strengths, by their names. -/
theorem scope_names {number n p : Nat} {cs : List Constraint} {s : Store}
    (h : Stage (plan number n p (attributes p)) (n + p + n * (p + 1)) cs s) :
    ((List.range n).map (decision number) ++ (List.range n).map (strength number n p)).map s.name =
      (List.range n).map (fun j => numbered "x" j "") ++
        (List.range n).map fun j => numbered "x" j ".strength" := by
  rw [List.map_append, decision_names h (by omega), List.map_map]
  refine congrArg _ (List.map_congr_left fun j hj => ?_)
  exact h.name_eq (strength_lt (List.mem_range.mp hj)) (label_extra.trans label_strength)

/-- **THE MODEL LISTS THE STRENGTHS.** If a decision variable would need more than the strength
    of the last part, the model is inconsistent. Otherwise it is built, and a search for all
    solutions over its scope lists exactly the tuples of parts which reach the threshold,
    followed by their strengths. -/
theorem build_lists_strengths (number : Nat) (listensTo : Option Level) {size : ModelSize}
    {threshold : Option Int} (hn : 0 ≤ size.variableCount) (hp1 : 1 ≤ size.partCount)
    (hp : InRange (100 * size.partCount))
    (hroom : size.variableCount.toNat * size.partCount.toNat *
      (if threshold.isSome then 3 else 2) ≤ ConstraintId.limit) :
    ((1 ≤ size.variableCount ∧ ∃ t ∈ threshold, 100 * size.partCount < t) → ∃ id s,
      build size threshold (.empty number listensTo) =
        (.error (.refused (.modelInconsistent id)), s)) ∧
    (¬ (1 ≤ size.variableCount ∧ ∃ t ∈ threshold, 100 * size.partCount < t) → ∃ scope s,
      build size threshold (.empty number listensTo) = (.ok scope, s) ∧
        scope.map s.name =
          (List.range size.variableCount.toNat).map (fun j => numbered "x" j "") ++
            (List.range size.variableCount.toNat).map (fun j => numbered "x" j ".strength") ∧
        s.ListsExactly scope fun tuple => ∃ xs : List Int, xs.length = size.variableCount ∧
          (∀ x ∈ xs, 1 ≤ x ∧ x ≤ size.partCount ∧ ∀ t ∈ threshold, t ≤ 100 * x) ∧
            tuple = xs ++ xs.map (100 * ·)) := by
  have hunit : ∀ x : Int, 100 * x = x * unit := Int.mul_comm 100
  simp only [hunit] at hp ⊢
  obtain ⟨n, p⟩ := size
  obtain ⟨n, rfl⟩ := Int.eq_ofNat_of_zero_le hn
  obtain ⟨p, rfl⟩ := Int.eq_ofNat_of_zero_le (Int.le_trans (by decide) hp1 : 0 ≤ p)
  have hp0 : p ≠ 0 := fun h => by simp [h] at hp1
  rw [Int.toNat_natCast, Int.toNat_natCast, ← length_constraints number] at hroom
  have hbuild := leadsTo_build number listensTo hp hp0 hroom
  rw [Build.LeadsTo] at hbuild
  generalize build ⟨n, p⟩ threshold (.empty number listensTo) = outcome at hbuild ⊢
  cases hbuild with
  | @well scope s hs =>
      obtain ⟨rfl, hstage⟩ := hs
      refine ⟨?_, fun _ => ⟨_, s, rfl, scope_names hstage, ?_⟩⟩
      -- a threshold above every strength would have been noticed
      · rintro ⟨hn1, t, ht, hlt⟩
        obtain rfl := Option.mem_def.mp ht
        have hn0 : n ≠ 0 := fun h => by simp [h] at hn1
        have hle := threshold_reached hp hn0 (Nat.pos_of_ne_zero hp0) hstage
        exact absurd hle (Int.not_le.mpr hlt)
      · refine (hstage.listsExactly fun v hv => ?_).congr fun tuple => ?_
        · rcases List.mem_append.mp hv with hv | hv <;> obtain ⟨j, hj, rfl⟩ := List.mem_map.mp hv
          · have := List.mem_range.mp hj
            exact ⟨j, by omega, rfl⟩
          · exact ⟨_, strength_lt (List.mem_range.mp hj), rfl⟩
        · simp only [Int.natCast_inj]
          exact exists_solves_iff hp
  | @badly id s hno =>
      refine ⟨fun _ => ⟨id, s, rfl⟩, fun hreach => ?_⟩
      -- the largest part number reaches every threshold that can be reached
      have hall : ∀ x ∈ List.replicate n (p : Int), 1 ≤ x ∧ x ≤ p ∧
          ∀ t ∈ threshold, t ≤ x * unit := by
        intro x hx
        obtain ⟨hn0, rfl⟩ := List.mem_replicate.mp hx
        refine ⟨hp1, Int.le_refl _, fun t ht => Int.not_lt.mp fun hlt => hreach ⟨?_, t, ht, hlt⟩⟩
        exact Int.ofNat_le.mpr (Nat.pos_of_ne_zero hn0)
      obtain ⟨σ, hσ, _⟩ := exists_solves hp List.length_replicate hall
      exact absurd hσ (hno σ)

/-- Three parts: a threshold above all strengths is refused, and with one of 200 there are four
    solutions in parts 2 and 3. -/
theorem build_of_three_lists_strengths :
    (∃ id s, build ⟨1, 3⟩ (some 301) (.empty 0 none) =
      (.error (.refused (.modelInconsistent id)), s)) ∧
    ∃ scope s, build ⟨2, 3⟩ (some 200) (.empty 0 none) = (.ok scope, s) ∧
      scope.map s.name = ["x0", "x1", "x0.strength", "x1.strength"] ∧
      s.ListsExactly scope fun tuple => ∃ xs : List Int, xs.length = (2 : Int) ∧
        (∀ x ∈ xs, 1 ≤ x ∧ x ≤ 3 ∧ ∀ t ∈ some (200 : Int), t ≤ 100 * x) ∧
          tuple = xs ++ xs.map (100 * ·) :=
  ⟨(build_lists_strengths 0 none (by decide) (by decide) (by decide) (by decide)).1
      ⟨by decide, 301, rfl, by decide⟩,
    (build_lists_strengths 0 none (by decide) (by decide) (by decide) (by decide)).2
      (by rintro ⟨_, t, ⟨⟩, hlt⟩; exact absurd hlt (by decide))⟩

end Strength

end ConstraintSolver
