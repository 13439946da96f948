import ConstraintSolver.Model.Strand
import ConstraintSolver.Proofs.PartPlans
import ConstraintSolver.Proofs.Tuples

/-! # Strand — the odd parts, and nothing else

    Every variable of the model has a role, and the plan is made from the
    names and the domains of the roles, one position after another.  A solution
    of the plan has on every part the strand of its parity, and the positive
    strand is asked for; so its tuple is one of odd parts.  The facts have
    already been propagated when the model is built: a part is fixed to its
    number, which decides its flag, which decides its strand. -/

namespace ConstraintSolver

open Constraint Store Parts

namespace Strand

/-! ## Roles -/

/-- What a variable of the model is there for. -/
inductive Role where
  | decision (j : Nat)
  /-- The strand that is asked for. -/
  | asked
  | part (i : Nat)
  /-- The strand of a part. -/
  | strand (i : Nat)
  /-- What ties the strand of a part to the part. -/
  | tie (i : Nat)

namespace Role

/-- The name of the variable, unless it is anonymous. -/
def name : Role → Option String
  | decision j => some (numbered "x" j "")
  | asked => some "part.strand"
  | part i => some (numbered "part-" (i + 1) "")
  | strand i => some (numbered "part-" (i + 1) ".strand")
  | tie _ => none

/-- The values with which the variable is declared, among that many parts. -/
def domain (p : Nat) : Role → Domain
  | decision _ => .between 1 p
  | asked => .ofValues [negative] ∪ .between positive positive
  | part i => .between (Int.ofNat i + 1) (Int.ofNat i + 1)
  | strand _ => .ofValues [negative, positive]
  | tie _ => .between 0 1

/-- The role is one of a model with that many decision variables and parts. -/
def Within (n p : Nat) : Role → Prop
  | decision j => j < n
  | asked => True
  | part i => i < p
  | strand i => i < p
  | tie i => i < p

/-- The position at which the variable is declared. -/
def position (n p : Nat) : Role → Nat
  | decision j => j
  | asked => n
  | part i => n + 1 + i
  | strand i => n + 1 + p + 2 * i
  | tie i => n + 1 + p + 2 * i + 1

/-- The role of the variable at a position. -/
def ofPosition (n p k : Nat) : Role :=
  if k < n then decision k
  else if k = n then asked
  else if k < n + 1 + p then part (k - (n + 1))
  else if (k - (n + 1 + p)) % 2 = 0 then strand ((k - (n + 1 + p)) / 2)
  else tie ((k - (n + 1 + p)) / 2)

variable {n p k : Nat} {r r' : Role}

/-- Every position is that of its role. -/
theorem position_ofPosition (n p k : Nat) : (ofPosition n p k).position n p = k := by
  rw [ofPosition]
  split_ifs <;> simp only [position] <;> omega

/-- Every role of the model is that of its position. -/
theorem ofPosition_position (h : r.Within n p) : ofPosition n p (r.position n p) = r := by
  cases r <;> simp only [Within] at h <;> simp only [ofPosition, position] <;> grind

/-- The roles of the model have positions among its variables. -/
theorem position_lt (h : r.Within n p) : r.position n p < n + 1 + p + 2 * p := by
  cases r <;> simp only [Within] at h <;> simp only [position] <;> omega

/-- The positions of the variables are those of roles of the model. -/
theorem within_ofPosition (hk : k < n + 1 + p + 2 * p) : (ofPosition n p k).Within n p := by
  rw [ofPosition]
  split_ifs <;> simp only [Within] <;> omega

/-- What is left of the name without its digits. -/
def letters : Role → String
  | decision _ => "x"
  | asked => "part.strand"
  | part _ => "part-"
  | strand _ => "part-.strand"
  | tie _ => ""

/-- Without its digits a name is made of the letters of the role. -/
theorem letters_name {name : String} (h : r.name = some name) :
    name.toList.filter (!·.isDigit) = r.letters.toList := by
  cases r with
  | decision j | part i | strand i =>
      cases h
      rw [letters, letters_numbered (by decide) (by decide)]
      decide
  | asked =>
      cases h
      decide
  | tie i => cases h

/-- The name tells the role. -/
theorem name_inj {name : String} (h : r.name = some name) (h' : r'.name = some name) :
    r = r' := by
  have hletters : r.letters = r'.letters :=
    String.toList_injective ((letters_name h).symm.trans (letters_name h'))
  have hname : r.name = r'.name := h.trans h'.symm
  cases r <;> cases r' <;> simp only [letters, String.reduceEq] at hletters
  case decision.decision j j' =>
    rw [(numbered_inj (by decide) (by decide) (by decide) (by decide) (Option.some.inj hname)).1]
  case asked.asked => rfl
  case part.part i i' | strand.strand i i' =>
    have := (numbered_inj (by decide) (by decide) (by decide) (by decide) (Option.some.inj hname)).1
    rw [Nat.succ.inj this]
  case tie.tie => cases h

/-- No name is made of an underscore and digits. -/
theorem unreserved {name : String} (h : r.name = some name) : Names.isReserved name = false := by
  cases r with
  | decision j =>
      cases h
      exact isReserved_numbered (c := 'x') rfl (by decide)
  | part i | strand i =>
      cases h
      exact isReserved_numbered (c := 'p') rfl (by decide)
  | asked =>
      cases h
      decide
  | tie i => cases h

end Role

/-! ## The plan -/

/-- **THE PLAN** has a variable for every role. -/
def plan (number n p : Nat) : Plan where
  number := number
  label k := (Role.ofPosition n p k).name
  domain k := (Role.ofPosition n p k).domain p
  distinct {i j _} hi hj := by
    rw [← Role.position_ofPosition n p i, Role.name_inj hi hj, Role.position_ofPosition]
  unreserved := Role.unreserved

/-- The variable with a role. -/
def var (number n p : Nat) (r : Role) : Variable := ⟨number, r.position n p⟩

/-- The number of variables. -/
def count (n p : Nat) : Nat := n + 1 + p + 2 * p

section Positions

variable {number n p : Nat} {r : Role}

/-- The plan gives every role its name. -/
theorem label_position (h : r.Within n p) : (plan number n p).label (r.position n p) = r.name :=
  congrArg Role.name (Role.ofPosition_position h)

/-- The plan gives every role its domain. -/
theorem domain_position (h : r.Within n p) :
    (plan number n p).domain (r.position n p) = r.domain p :=
  congrArg (Role.domain p) (Role.ofPosition_position h)

/-- A property of all variables of the plan is one of all roles. -/
theorem forall_position {P : Nat → Prop} :
    (∀ k < count n p, P k) ↔ ∀ r : Role, r.Within n p → P (r.position n p) := by
  constructor
  · intro h r hr
    exact h _ (Role.position_lt hr)
  · intro h k hk
    have hrole := h _ (Role.within_ofPosition hk)
    rwa [Role.position_ofPosition] at hrole

/-- **WHAT IS DRAWN** from the domains of the plan. -/
theorem draws_iff {σ : Assignment} :
    (plan number n p).Draws (count n p) σ ↔
      ∀ r : Role, r.Within n p → σ (var number n p r) ∈ r.domain p := by
  refine forall_position.trans (forall₂_congr fun r hr => ?_)
  rw [domain_position hr]
  rfl

end Positions

/-! ## The constraints -/

section Build

variable (number n p : Nat)

/-- The strand of the part is that of its parity, if its tie is 1. -/
def signed (i : Nat) : Constraint :=
  .reified (.equality (var number n p (.strand i)) .equal
    (.constant (strandOf (Int.ofNat i + 1)))) (var number n p (.tie i))

/-- The part has its number, if its tie is 1. -/
def identified (i : Nat) : Constraint :=
  .reified (.equality (var number n p (.part i)) .equal (.constant (Int.ofNat i + 1)))
    (var number n p (.tie i))

/-- A decision variable holds a part on the strand that is asked for. -/
def query (j : Nat) : Constraint :=
  holdsPartOn (var number n p .asked) ((List.range p).map fun i => var number n p (.part i))
    ((List.range p).map fun i => var number n p (.strand i)) (var number n p (.decision j))

/-- The positive strand is asked for. -/
def asks : Constraint := .equality (var number n p .asked) .equal (.constant positive)

/-- The facts about the first parts. -/
def facts (i : Nat) : List Constraint :=
  (List.range i).flatMap fun i => [signed number n p i, identified number n p i]

/-- All facts, and the query about the first decision variables. -/
def queried (j : Nat) : List Constraint :=
  facts number n p p ++ (List.range j).map (query number n p)

/-- All constraints of the model. -/
def constraints : List Constraint := queried number n p n ++ [asks number n p]

/-- The assignment is a solution of the plan. -/
def Solves (σ : Assignment) : Prop :=
  (plan number n p).Solved (count n p) (constraints number n p) σ

variable {number n p} {s : Store} {i j k : Nat}

theorem length_constraints (number n p : Nat) :
    (constraints number n p).length = p * 2 + n + 1 := by
  simp [constraints, queried, facts, List.length_flatMap, Nat.add_assoc]

/-- The facts about one part more are two more. -/
theorem facts_succ (number n p i : Nat) : facts number n p (i + 1) =
    facts number n p i ++ [signed number n p i] ++ [identified number n p i] := by
  rw [facts, facts, List.range_succ, List.flatMap_append, List.flatMap_singleton,
    List.append_assoc]
  rfl

/-- The facts about the first parts come first. -/
theorem facts_prefix (number n : Nat) (hi : i ≤ p) :
    facts number n p i <+: constraints number n p :=
  (((Build.range_prefix hi).flatMap _).trans (List.prefix_append _ _)).trans
    (List.prefix_append _ _)

/-- A query more comes last. -/
theorem queried_succ (number n p j : Nat) :
    queried number n p (j + 1) = queried number n p j ++ [query number n p j] := by
  rw [queried, queried, List.range_succ, List.map_append, List.map_singleton, List.append_assoc]

/-- The queries about the first decision variables come first. -/
theorem queried_prefix (number p : Nat) (hj : j ≤ n) :
    queried number n p j <+: constraints number n p :=
  ((List.prefix_append_right_inj _).mpr ((Build.range_prefix hj).map _)).trans
    (List.prefix_append _ _)

/-- Whether a part is on the strand that is asked for, and is the one held. -/
def choice (number n p j i : Nat) : Constraint :=
  .and
    [.equality (var number n p (.strand i)) .equal (.variable (var number n p .asked)),
      .equality (var number n p (.decision j)) .equal (.variable (var number n p (.part i)))]

/-- A query is a disjunction over the parts. -/
theorem query_eq (number n p j : Nat) :
    query number n p j = .or ((List.range p).map (choice number n p j)) := by
  rw [query, holdsPartOn, List.zip_map', List.map_map]
  rfl

/-- A variable of the plan is declared before all later positions. -/
theorem declared {r : Role} (hr : r.position n p < k) :
    ∃ m < k, var number n p r = (plan number n p).handle m := ⟨_, hr, rfl⟩

/-- A fact about a role is admitted once the tie of the part is declared. -/
theorem admits_fact {r : Role} {value : Int} (hi : i < p) (hr : r.position n p < k)
    (hk : Role.position n p (.tie i) < k) :
    (plan number n p).Admits k
      (.reified (.equality (var number n p r) .equal (.constant value))
        (var number n p (.tie i))) := by
  constructor
  · intro v hv
    rcases List.mem_pair.mp hv with rfl | rfl
    · exact declared hr
    · exact declared hk
  · intro b hb x hx
    obtain rfl : b = var number n p (.tie i) := List.mem_singleton.mp hb
    have hdomain : (plan number n p).domain (var number n p (.tie i)).index = _ :=
      domain_position (r := .tie i) hi
    have hbounds := Domain.mem_between.mp (hdomain ▸ hx)
    omega
  · intro offset hoffset
    cases hoffset

/-- A query refers to variables of the plan. -/
theorem admits_query (hj : j < n) :
    (plan number n p).Admits (count n p) (query number n p j) := by
  rw [query_eq]
  constructor
  · intro v hv
    rw [occurrences, occurrencesAll_eq_flatMap, List.flatMap_map, List.mem_flatMap] at hv
    obtain ⟨i, hi, hv⟩ := hv
    have hip : i < p := List.mem_range.mp hi
    -- all variables of one alternative have been declared
    have hroles : ∀ r ∈ [Role.strand i, .asked, .decision j, .part i], r.Within n p := by
      simp [Role.Within, hip, hj]
    simp only [choice, occurrences, occurrencesAll, List.append_nil, List.mem_append,
      List.mem_cons, List.not_mem_nil, or_false] at hv
    rcases hv with (rfl | rfl) | rfl | rfl <;>
      exact declared (Role.position_lt (hroles _ (by simp)))
  · intro b hb
    rw [flags, flagsAll_eq_flatMap, List.flatMap_map, List.mem_flatMap] at hb
    obtain ⟨i, _, hb⟩ := hb
    cases hb
  · intro offset hoffset
    rw [offsets, offsetsAll_eq_flatMap, List.flatMap_map, List.mem_flatMap] at hoffset
    obtain ⟨i, _, hoffset⟩ := hoffset
    cases hoffset

theorem admits_asks : (plan number n p).Admits (count n p) (asks number n p) := by
  constructor
  · intro v hv
    obtain rfl := List.mem_singleton.mp hv
    exact declared (Role.position_lt (r := .asked) trivial)
  · intro b hb
    cases hb
  · intro offset hoffset
    cases hoffset

/-! ## Building -/

/-- **THE FACTS** about the next part. -/
theorem leadsTo_declareStrand (hi : i < p)
    (hroom : (constraints number n p).length ≤ ConstraintId.limit)
    (h : Stage (plan number n p) (n + 1 + p + 2 * i) (facts number n p i) s) :
    (do
      let strand ← Build.sparse [negative, positive] (numbered "part-" (i + 1) ".strand")
      let isPart ← Build.boolean
      Build.impose
        (.reified (.equality strand .equal (.constant (strandOf (Int.ofNat i + 1)))) isPart)
      Build.impose (.reified
        (.equality (var number n p (.part i)) .equal (.constant (Int.ofNat i + 1))) isPart)
      return strand : Build Variable).LeadsTo s
      (fun v t => v = var number n p (.strand i) ∧
        Stage (plan number n p) (n + 1 + p + 2 * (i + 1)) (facts number n p (i + 1)) t)
      (∀ σ, ¬ Solves number n p σ) := by
  have hprefix := facts_prefix number n (Nat.succ_le_of_lt hi)
  rw [facts_succ] at hprefix ⊢
  have hpositive : positive ∈ Domain.ofValues [negative, positive] :=
    Domain.mem_ofValues.mpr (by decide)
  have hcount : n + 1 + p + 2 * (i + 1) ≤ count n p := by
    rw [count]
    omega
  have htie : Role.position n p (.tie i) < n + 1 + p + 2 * (i + 1) := Nat.lt_succ_self _
  refine (Build.leadsTo_sparse h (label_position (r := .strand i) hi) hpositive).bind
    fun v t ht => ?_
  obtain ⟨rfl, ht⟩ := ht
  have hdomain : (plan number n p).domain (n + 1 + p + 2 * i) = .ofValues [negative, positive] :=
    domain_position (r := .strand i) hi
  rw [← hdomain] at ht
  refine (Build.leadsTo_boolean (h.opened ht) (label_position (r := .tie i) hi)
    (domain_position (r := .tie i) hi)).bind fun v t ht => ?_
  obtain ⟨rfl, ht⟩ := ht
  refine (Build.leadsTo_impose ht (admits_fact (r := .strand i) hi ?_ htie) hcount
    ((List.prefix_append _ _).trans hprefix) hroom).bind fun _ t ht => ?_
  · exact Nat.lt_add_of_pos_right Nat.two_pos
  refine (Build.leadsTo_impose ht (admits_fact (r := .part i) hi ?_ htie) hcount
    hprefix hroom).bind fun _ t ht => ?_
  · rw [Role.position]
    omega
  exact Build.leadsTo_pure ⟨rfl, ht⟩

/-- All facts. -/
theorem leadsTo_declareStrands (hroom : (constraints number n p).length ≤ ConstraintId.limit)
    (h : Stage (plan number n p) (n + 1 + p) [] s) :
    (declareStrands ⟨n, p⟩ ((List.range p).map fun i => var number n p (.part i))).LeadsTo s
      (fun vs t => vs = ((List.range p).map fun i => var number n p (.strand i)) ∧
        Stage (plan number n p) (count n p) (facts number n p p) t)
      (∀ σ, ¬ Solves number n p σ) := by
  rw [declareStrands]
  refine (Build.leadsTo_mapM
    (fun i t => Stage (plan number n p) (n + 1 + p + 2 * i) (facts number n p i) t)
    (fun i => var number n p (.strand i)) (fun i hi t ht => ?_) h).mono (fun vs t ht => ?_) id
  · have hip : i < p := by simpa [length_numbers] using hi
    simp only [List.getElem_zip, List.getElem_map, List.getElem_range, getElem_numbers,
      partName_eq, numbered_append]
    exact leadsTo_declareStrand hip hroom ht
  · rwa [List.length_zip, length_numbers, List.length_map, List.length_range, Nat.min_self] at ht

/-- The query about all decision variables. -/
theorem leadsTo_query (hroom : (constraints number n p).length ≤ ConstraintId.limit)
    (h : Stage (plan number n p) (count n p) (facts number n p p) s) :
    Build.LeadsTo (((List.range n).map fun j => var number n p (.decision j)).forM fun x =>
        Build.impose (holdsPartOn (var number n p .asked)
          ((List.range p).map fun i => var number n p (.part i))
          ((List.range p).map fun i => var number n p (.strand i)) x)) s
      (fun _ t => Stage (plan number n p) (count n p) (queried number n p n) t)
      (∀ σ, ¬ Solves number n p σ) := by
  refine (Build.leadsTo_forM
    (fun j t => Stage (plan number n p) (count n p) (queried number n p j) t)
    (fun j hj t ht => ?_) ?_).mono (fun _ t ht => ?_) id
  · have hjn : j < n := by simpa using hj
    have hprefix := queried_prefix number p (Nat.succ_le_of_lt hjn)
    rw [queried_succ] at hprefix ⊢
    rw [List.getElem_map, List.getElem_range]
    exact Build.leadsTo_impose ht (admits_query hjn) (Nat.le_refl _) hprefix hroom
  · rwa [queried, List.range_zero, List.map_nil, List.append_nil]
  · rwa [List.length_map, List.length_range] at ht

/-- **THE BUILD** comes to the end of its plan, or the plan has no solution. -/
theorem leadsTo_build (number : Nat) (listensTo : Option Level) (hp : InRange p) (hp0 : p ≠ 0)
    (hroom : (constraints number n p).length ≤ ConstraintId.limit) :
    (build ⟨n, p⟩).LeadsTo (.empty number listensTo)
      (fun vs t => vs = ((List.range n).map fun j => var number n p (.decision j)) ∧
        Stage (plan number n p) (count n p) (constraints number n p) t)
      (∀ σ, ¬ Solves number n p σ) := by
  rw [build]
  refine (leadsTo_declareVariables_of hp hp0 (fun j hj => label_position (r := .decision j) hj)
    (fun j hj => domain_position (r := .decision j) hj)
    (.empty (plan number n p) listensTo)).bind fun vs s hs => ?_
  obtain ⟨rfl, hs⟩ := hs
  -- the strand that is asked for is declared with one value, and given the other afterwards
  have hnegative : negative ∈ Domain.ofValues [negative] := Domain.mem_ofValues.mpr (by decide)
  refine (Build.leadsTo_sparse hs (label_position (r := .asked) trivial) hnegative).bind
    fun v t ht => ?_
  obtain ⟨rfl, ht⟩ := ht
  refine (Build.leadsTo_extend hs ht (by decide)).bind fun _ t ht => ?_
  have hdomain : (plan number n p).domain n =
      .ofValues [negative] ∪ .between positive positive :=
    domain_position (r := .asked) trivial
  rw [← hdomain] at ht
  refine (leadsTo_declareParts_of hp (fun i hi => label_position (r := .part i) hi)
    (fun i hi => domain_position (r := .part i) hi) (hs.opened ht)).bind fun vs s hs => ?_
  obtain ⟨rfl, hs⟩ := hs
  refine (leadsTo_declareStrands hroom hs).bind fun vs s hs => ?_
  obtain ⟨rfl, hs⟩ := hs
  refine (leadsTo_query hroom hs).bind fun _ s hs => ?_
  refine (Build.leadsTo_impose hs admits_asks (Nat.le_refl _) (List.prefix_refl _) hroom).bind
    fun _ s hs => ?_
  exact (Build.leadsTo_finished hs).bind fun _ s hs => Build.leadsTo_pure ⟨rfl, hs⟩

end Build

/-! ## The solutions -/

section Solutions

variable {number n p : Nat} {σ : Assignment}

/-- An odd number among those of the parts. -/
def OddPart (p : Nat) (x : Int) : Prop := 1 ≤ x ∧ x ≤ p ∧ x % 2 = 1

/-- **WHAT THE VALUES** of the roles have to be. -/
structure Stranded (n p : Nat) (value : Role → Int) : Prop where
  decisions : ∀ j < n, OddPart p (value (.decision j))
  asked : value .asked = positive
  parts : ∀ i < p, value (.part i) = Int.ofNat i + 1
  strands : ∀ i < p, value (.strand i) = strandOf (Int.ofNat i + 1)
  ties : ∀ i < p, value (.tie i) = 1

/-- The odd numbers are on the positive strand. -/
theorem strandOf_eq_positive {number : Int} : strandOf number = positive ↔ number % 2 = 1 := by
  rw [strandOf]
  split
  · exact iff_of_true rfl ‹_›
  · exact iff_of_false (by decide) ‹_›

theorem strandOf_succ {i : Nat} :
    strandOf (Int.ofNat i + 1) = if (i + 1) % 2 = 1 then 1 else -1 := by
  have hparity : (Int.ofNat i + 1) % 2 = 1 ↔ (i + 1) % 2 = 1 := by
    simp only [Int.ofNat_eq_natCast]
    omega
  rw [strandOf]
  exact if_congr hparity rfl rfl

/-- The odd parts are those on the positive strand. -/
theorem oddPart_iff {x : Int} :
    OddPart p x ↔ ∃ i < p, strandOf (Int.ofNat i + 1) = positive ∧ x = Int.ofNat i + 1 := by
  constructor
  · rintro ⟨hone, hle, hodd⟩
    obtain ⟨i, hi, rfl⟩ := exists_part ⟨hone, hle⟩
    exact ⟨i, hi, strandOf_eq_positive.mpr hodd, rfl⟩
  · rintro ⟨i, hi, hstrand, rfl⟩
    refine ⟨?_, ?_, strandOf_eq_positive.mp hstrand⟩ <;>
      simp only [Int.ofNat_eq_natCast] <;> omega

/-- The constraints are two facts for each part, a query for each decision variable, and what is
    asked. -/
theorem forall_constraints {P : Constraint → Prop} :
    (∀ c ∈ constraints number n p, P c) ↔
      (∀ i < p, P (signed number n p i) ∧ P (identified number n p i)) ∧
        (∀ j < n, P (query number n p j)) ∧ P (asks number n p) := by
  simp only [constraints, queried, facts, List.forall_mem_append, List.forall_mem_flatMap,
    List.forall_mem_map, List.forall_mem_cons, List.mem_range, List.not_mem_nil, false_implies,
    implies_true, and_true, and_assoc]

/-- The tie is 1 where the part is on the strand of its parity, and else 0. -/
theorem holds_signed {i : Nat} :
    (signed number n p i).holds σ = true ↔
      (σ (var number n p (.tie i)) = 1 ∧
          σ (var number n p (.strand i)) = strandOf (Int.ofNat i + 1)) ∨
        (σ (var number n p (.tie i)) = 0 ∧
          σ (var number n p (.strand i)) ≠ strandOf (Int.ofNat i + 1)) := by
  rw [signed, holds_reified_equality, Term.value]

/-- The tie is 1 where the part has its number, and else 0. -/
theorem holds_identified {i : Nat} :
    (identified number n p i).holds σ = true ↔
      (σ (var number n p (.tie i)) = 1 ∧ σ (var number n p (.part i)) = Int.ofNat i + 1) ∨
        (σ (var number n p (.tie i)) = 0 ∧ σ (var number n p (.part i)) ≠ Int.ofNat i + 1) := by
  rw [identified, holds_reified_equality, Term.value]

/-- A query holds exactly if the decision variable holds a part on the strand that is asked
    for. -/
theorem holds_query {j : Nat} :
    (query number n p j).holds σ = true ↔
      ∃ i < p, σ (var number n p (.strand i)) = σ (var number n p .asked) ∧
        σ (var number n p (.decision j)) = σ (var number n p (.part i)) := by
  rw [query_eq, holds, truths_eq_map, List.map_map, List.any_map, List.any_eq_true]
  simp [choice, holds, truths, EqualityRelation.relates, Term.value]

theorem holds_asks :
    (asks number n p).holds σ = true ↔ σ (var number n p .asked) = positive := by
  simp [asks, holds, EqualityRelation.relates, Term.value]

/-- Values as they have to be are drawn from the domains of the roles. -/
theorem Stranded.mem_domain {value : Role → Int} (h : Stranded n p value) (hp : InRange p)
    {r : Role} (hr : r.Within n p) : value r ∈ r.domain p := by
  cases r with
  | decision j =>
      obtain ⟨hone, hle, _⟩ := h.decisions j hr
      exact (mem_numbers hp).mpr ⟨hone, hle⟩
  | asked =>
      rw [h.asked]
      exact Domain.mem_union.mpr (.inr (Domain.mem_between.mpr (by decide)))
  | part i => exact (mem_number hp hr).mpr (h.parts i hr)
  | strand i =>
      rw [h.strands i hr, strandOf]
      split <;> exact Domain.mem_ofValues.mpr (by decide)
  | tie i =>
      rw [h.ties i hr]
      exact Domain.mem_between.mpr (by decide)

/-- **THE SOLUTIONS OF THE PLAN** have odd parts and the strands of the parities. -/
theorem solves_iff (hp : InRange p) :
    Solves number n p σ ↔ Stranded n p fun r => σ (var number n p r) := by
  rw [Solves, Plan.Solved, draws_iff, forall_constraints]
  simp only [holds_signed, holds_identified, holds_query, holds_asks]
  constructor
  · rintro ⟨hdraws, hfacts, hquery, hasked⟩
    have hparts : ∀ i < p, σ (var number n p (.part i)) = Int.ofNat i + 1 := fun i hi =>
      (mem_number hp hi).mp (hdraws (.part i) hi)
    -- a tie of 0 would be excluded by the number of the part
    have hties : ∀ i < p, σ (var number n p (.tie i)) = 1 := fun i hi =>
      ((hfacts i hi).2.resolve_right fun h => h.2 (hparts i hi)).1
    have hstrands : ∀ i < p, σ (var number n p (.strand i)) = strandOf (Int.ofNat i + 1) := by
      intro i hi
      rcases (hfacts i hi).1 with ⟨_, heq⟩ | ⟨hzero, _⟩
      · exact heq
      · exact absurd ((hties i hi).symm.trans hzero) (by decide)
    refine ⟨?_, hasked, hparts, hstrands, hties⟩
    intro j hj
    obtain ⟨i, hi, hstrand, hdecision⟩ := hquery j hj
    rw [hstrands i hi, hasked] at hstrand
    rw [hparts i hi] at hdecision
    exact oddPart_iff.mpr ⟨i, hi, hstrand, hdecision⟩
  · intro h
    -- each disjunction is met by its first side
    refine ⟨fun r hr => h.mem_domain hp hr, ?_, ?_, h.asked⟩
    · intro i hi
      exact ⟨.inl ⟨h.ties i hi, h.strands i hi⟩, .inl ⟨h.ties i hi, h.parts i hi⟩⟩
    · intro j hj
      obtain ⟨i, hi, hstrand, hdecision⟩ := oddPart_iff.mp (h.decisions j hj)
      exact ⟨i, hi, (h.strands i hi).trans (hstrand.trans h.asked.symm),
        hdecision.trans (h.parts i hi).symm⟩

/-- The value of a role in the solution with the given tuple. -/
def Role.value (tuple : List Int) : Role → Int
  | decision j => tuple[j]?.getD 0
  | asked => positive
  | part i => Int.ofNat i + 1
  | strand i => strandOf (Int.ofNat i + 1)
  | tie _ => 1

/-- A tuple of odd parts is that of a solution. -/
theorem exists_solves (hp : InRange p) {tuple : List Int} (hlength : tuple.length = n)
    (hodd : ∀ x ∈ tuple, OddPart p x) :
    ∃ σ, Solves number n p σ ∧
      tuple = ((List.range n).map fun j => var number n p (.decision j)).map σ := by
  let σ : Assignment := fun v => (Role.ofPosition n p v.index).value tuple
  have hvalue : ∀ r : Role, r.Within n p → σ (var number n p r) = r.value tuple := fun r hr =>
    congrArg (Role.value tuple) (Role.ofPosition_position hr)
  have hdecision : ∀ j (hj : j < tuple.length), σ (var number n p (.decision j)) = tuple[j] := by
    intro j hj
    rw [hvalue (.decision j) (hlength ▸ hj), Role.value, List.getElem?_eq_getElem hj,
      Option.getD_some]
  have hstranded : Stranded n p fun r => σ (var number n p r) := by
    constructor
    case decisions =>
      intro j hj
      rw [hdecision j (hlength ▸ hj)]
      exact hodd _ (List.getElem_mem _)
    case asked => exact hvalue .asked trivial
    case parts => exact fun i hi => hvalue (.part i) hi
    case strands => exact fun i hi => hvalue (.strand i) hi
    case ties => exact fun i hi => hvalue (.tie i) hi
  refine ⟨σ, (solves_iff hp).mpr hstranded, List.ext_getElem (by simp [hlength]) ?_⟩
  intro j hj _
  rw [List.getElem_map, List.getElem_map, List.getElem_range, hdecision j hj]

/-- **THE TUPLES OF THE SOLUTIONS** are those of odd parts. -/
theorem exists_solves_iff {tuple : List Int} (hp : InRange p) :
    (∃ σ, Solves number n p σ ∧
      tuple = ((List.range n).map fun j => var number n p (.decision j)).map σ) ↔
      tuple.length = n ∧ ∀ x ∈ tuple, OddPart p x := by
  constructor
  · rintro ⟨σ, hσ, rfl⟩
    rw [List.map_map]
    refine ⟨by simp, ?_⟩
    intro x hx
    obtain ⟨j, hj, rfl⟩ := List.mem_map.mp hx
    exact ((solves_iff hp).mp hσ).decisions j (List.mem_range.mp hj)
  · rintro ⟨hlength, hodd⟩
    exact exists_solves hp hlength hodd

end Solutions

/-! ## The facts, propagated -/

section Stability

variable {number n p : Nat} {s : Store}

/-- **THE STRANDS ARE FIXED** once the model is built: the part to its tie, and the tie to its
    strand. -/
theorem strand_fixed (hp : InRange p)
    (h : Stage (plan number n p) (count n p) (constraints number n p) s) {i : Nat} (hi : i < p) :
    (s.domains.get (var number n p (.strand i))).fixedValue? =
      some (strandOf (Int.ofNat i + 1)) := by
  obtain ⟨⟨hsigned, hsignedStable⟩, hidentified, hidentifiedStable⟩ :=
    (forall_constraints.mp fun c hc => h.stable hc).1 i hi
  have hpart : (s.domains.get (var number n p (.part i))).fixedValue? = some (Int.ofNat i + 1) := by
    refine h.fixed (Role.position_lt (r := .part i) hi) fun x hx => ?_
    rw [domain_position (r := .part i) hi] at hx
    exact (mem_number hp hi).mp hx
  have htie : (s.domains.get (var number n p (.tie i))).fixedValue? = some 1 :=
    flag_of_stable hidentified hidentifiedStable
      (equalityEntailment_constant_eq_satisfied.mpr hpart)
  have hbody := body_of_stable hsigned hsignedStable htie
  rwa [Stable, Constraint.propagate, idle_equality_iff hsigned.body.inhabited,
    EqualityBalance] at hbody

/-- The strand of a part is found under its name, and is that of the parity. -/
theorem exists_strand (hp : InRange p)
    (h : Stage (plan number n p) (count n p) (constraints number n p) s) {i : Nat} (hi : 1 ≤ i)
    (hip : i ≤ p) : ∃ v, s.lookup (numbered "part-" i ".strand") = .ok v ∧
      (s.domain v).fixedValue? = some (if i % 2 = 1 then 1 else -1) := by
  obtain ⟨i, rfl⟩ := Nat.exists_eq_add_of_le' hi
  have hwithin : Role.Within n p (.strand i) := hip
  refine ⟨_, h.lookup_eq (Role.position_lt hwithin) (label_position hwithin), ?_⟩
  exact (strand_fixed hp h hwithin).trans (congrArg some strandOf_succ)

end Stability

/-! ## How many there are -/

/-- The odd numbers among those of the parts. -/
def oddNumbers (p : Nat) : Finset Int :=
  (Finset.range ((p + 1) / 2)).image fun k : Nat => 2 * (k : Int) + 1

/-- The odd numbers are those of parts on the positive strand. -/
theorem mem_oddNumbers {p : Nat} {x : Int} : x ∈ oddNumbers p ↔ OddPart p x := by
  rw [oddNumbers, Finset.mem_image, OddPart]
  constructor
  · rintro ⟨k, hk, rfl⟩
    have := Finset.mem_range.mp hk
    omega
  · rintro ⟨hone, hle, hodd⟩
    exact ⟨((x - 1) / 2).toNat, Finset.mem_range.mpr (by omega), by omega⟩

/-- Half of the parts, rounded up, have odd numbers. -/
theorem card_oddNumbers (p : Nat) : (oddNumbers p).card = (p + 1) / 2 := by
  have hinj : Function.Injective fun k : Nat => 2 * (k : Int) + 1 := by
    intro k m h
    simp only at h
    omega
  rw [oddNumbers, Finset.card_image_of_injective _ hinj, Finset.card_range]

/-- The number of tuples is a power of the number of odd parts. -/
theorem length_oddTuples {n p : Nat} {tuples : List (List Int)} (hnodup : tuples.Nodup)
    (hmem : ∀ tuple, tuple ∈ tuples ↔ tuple.length = n ∧ ∀ x ∈ tuple, OddPart p x) :
    tuples.length = ((p + 1) / 2) ^ n := by
  rw [← card_oddNumbers]
  refine length_tuples hnodup fun tuple => ?_
  simp only [mem_oddNumbers]
  exact hmem tuple

/-! ## The model -/

/-- **THE MODEL LISTS THE ODD PARTS.** It is built, with every part on the strand of its parity, and
    a search for all solutions over its scope lists exactly the tuples of odd parts, of which there
    are as many as there are choices of one of the odd parts for every decision variable. -/
theorem build_lists_odd_parts (number : Nat) (listensTo : Option Level) {size : ModelSize}
    (hn : 0 ≤ size.variableCount) (hp1 : 1 ≤ size.partCount) (hp : InRange size.partCount)
    (hroom : 2 * size.partCount + size.variableCount + 1 ≤ ConstraintId.limit) :
    ∃ scope s, build size (.empty number listensTo) = (.ok scope, s) ∧
      scope.map s.name =
        (List.range size.variableCount.toNat).map (fun j => numbered "x" j "") ∧
      (∀ i : Nat, 1 ≤ i → i ≤ size.partCount →
        ∃ v, s.lookup (numbered "part-" i ".strand") = .ok v ∧
          (s.domain v).fixedValue? = some (if i % 2 = 1 then 1 else -1)) ∧
      (s.ListsExactly scope fun tuple => tuple.length = size.variableCount ∧
        ∀ x ∈ tuple, 1 ≤ x ∧ x ≤ size.partCount ∧ x % 2 = 1) ∧
      ∀ tuples : List (List Int), tuples.Nodup →
        (∀ tuple, tuple ∈ tuples ↔ tuple.length = size.variableCount ∧
          ∀ x ∈ tuple, 1 ≤ x ∧ x ≤ size.partCount ∧ x % 2 = 1) →
        tuples.length = ((size.partCount.toNat + 1) / 2) ^ size.variableCount.toNat := by
  obtain ⟨n, p⟩ := size
  obtain ⟨n, rfl⟩ := Int.eq_ofNat_of_zero_le hn
  obtain ⟨p, rfl⟩ := Int.eq_ofNat_of_zero_le (Int.le_trans (by decide) hp1 : 0 ≤ p)
  have hp0 : p ≠ 0 := fun h => by simp [h] at hp1
  have hlength : (constraints number n p).length ≤ ConstraintId.limit := by
    rw [length_constraints]
    simp only at hroom
    omega
  have hbuild := leadsTo_build number listensTo hp hp0 hlength
  rw [Build.LeadsTo] at hbuild
  generalize build ⟨n, p⟩ (.empty number listensTo) = outcome at hbuild ⊢
  cases hbuild with
  | @well scope s hs =>
      obtain ⟨rfl, hstage⟩ := hs
      refine ⟨_, s, rfl, ?_, ?_, ?_, ?_⟩
      · refine decision_names_of (fun j hj => label_position (r := .decision j) hj) hstage ?_
        rw [count]
        omega
      · intro i hi hip
        exact exists_strand hp hstage hi (Int.ofNat_le.mp hip)
      · refine (hstage.listsExactly fun v hv => ?_).congr fun tuple => ?_
        · obtain ⟨j, hj, rfl⟩ := List.mem_map.mp hv
          exact declared (Role.position_lt (r := .decision j) (List.mem_range.mp hj))
        · simp only [Int.natCast_inj]
          exact exists_solves_iff hp
      · intro tuples hnodup hmem
        refine length_oddTuples hnodup fun tuple => (hmem tuple).trans ?_
        exact and_congr_left fun _ => Int.natCast_inj
  -- the first part has an odd number, so there is a solution
  | @badly id s hno =>
      have hones : ∀ x ∈ List.replicate n (1 : Int), OddPart p x := by
        intro x hx
        rw [List.eq_of_mem_replicate hx]
        exact ⟨Int.le_refl 1, hp1, rfl⟩
      obtain ⟨σ, hσ, _⟩ := exists_solves hp List.length_replicate hones
      exact absurd hσ (hno σ)

/-- Three parts, of which the second one is on the negative strand, and two decision variables:
    four pairs of odd numbers. -/
theorem build_of_three_lists_odd_pairs :
    ∃ scope s, build ⟨2, 3⟩ (.empty 0 none) = (.ok scope, s) ∧
      scope.map s.name = ["x0", "x1"] ∧
      (∃ v, s.lookup "part-2.strand" = .ok v ∧ (s.domain v).fixedValue? = some (-1)) ∧
      (s.ListsExactly scope fun tuple =>
        tuple.length = (2 : Int) ∧ ∀ x ∈ tuple, 1 ≤ x ∧ x ≤ 3 ∧ x % 2 = 1) ∧
      ∀ tuples : List (List Int), tuples.Nodup →
        (∀ tuple, tuple ∈ tuples ↔
          tuple.length = (2 : Int) ∧ ∀ x ∈ tuple, 1 ≤ x ∧ x ≤ 3 ∧ x % 2 = 1) →
        tuples.length = 4 := by
  obtain ⟨scope, s, hbuild, hnames, hstrands, hlists, hcount⟩ :=
    build_lists_odd_parts 0 none (by decide : 0 ≤ (ModelSize.mk 2 3).variableCount) (by decide)
      (by decide) (by decide)
  exact ⟨scope, s, hbuild, hnames, hstrands 2 (by decide) (by decide), hlists, hcount⟩

end Strand

end ConstraintSolver
