import ConstraintSolver.Proofs.Entailment

/-! # Negation — the tree, its negation, and the node above it

    Negation is pushed through reifications, connectives and consequents, and
    stops where a node is put above a tree or taken away.  A reification whose
    flag is neither 0 nor 1 does not hold, and neither does its negation;
    everywhere else a tree and its negation are opposites.  So negation is
    exact on all the trees which it reaches if and only if the flags which it
    is pushed past are 0 or 1 (`negation_exact_iff`).

    On domains that are still open, the verdict on the negation is that on the
    node which negates, and negating twice changes no verdict, although it
    gives back another tree as soon as there is a conditional or a node which
    negates a tree that has a negation of its own (`verdict_of_negation`). -/

namespace ConstraintSolver

namespace Constraint

open Entailment

/-! ## Trees which negation reaches -/

mutual

/-- The tree, and the trees below it which negation is pushed down to. -/
def reached : Constraint → List Constraint
  | equality x relation rhs => [equality x relation rhs]
  | ordering x relation rhs => [ordering x relation rhs]
  | linear x offset relation z => [linear x offset relation z]
  | element index array rhs first => [element index array rhs first]
  | reified body flag => reified body flag :: reached body
  | and operands => and operands :: reachedAll operands
  | or operands => or operands :: reachedAll operands
  | xor operands => [xor operands]
  | ifThen antecedent consequent => ifThen antecedent consequent :: reached consequent
  | not operand => [not operand]

/-- The trees which negation reaches from several constraints. -/
def reachedAll : List Constraint → List Constraint
  | [] => []
  | c :: cs => reached c ++ reachedAll cs

end

theorem reachedAll_eq_flatMap (cs : List Constraint) : reachedAll cs = cs.flatMap reached := by
  induction cs with
  | nil => rfl
  | cons c cs ih => rw [reachedAll, ih, List.flatMap_cons]

/-- Negation reaches into a list what it reaches into one of its members. -/
theorem mem_reachedAll {cs : List Constraint} {d : Constraint} :
    d ∈ reachedAll cs ↔ ∃ c ∈ cs, d ∈ reached c := by
  rw [reachedAll_eq_flatMap, List.mem_flatMap]

/-- What holds of a tree, and of the next trees whenever it holds of one that negation reaches,
    holds of all that it reaches. -/
@[elab_as_elim]
theorem reached_induction {motive : Constraint → Prop} {d : Constraint}
    (reified : ∀ body flag, motive (.reified body flag) → motive body)
    (and : ∀ operands, motive (.and operands) → ∀ c ∈ operands, motive c)
    (or : ∀ operands, motive (.or operands) → ∀ c ∈ operands, motive c)
    (ifThen : ∀ antecedent consequent, motive (.ifThen antecedent consequent) → motive consequent)
    (c : Constraint) (hd : d ∈ reached c) (h : motive c) : motive d := by
  induction c using treeInduction with
  | equality | ordering | linear | element | xor | not =>
      rw [reached, List.mem_singleton] at hd
      exact hd ▸ h
  | reified body flag ih =>
      rcases List.mem_cons.mp hd with rfl | hd
      · exact h
      · exact ih hd (reified body flag h)
  | and operands ih =>
      rcases List.mem_cons.mp hd with rfl | hd
      · exact h
      · obtain ⟨c, hc, hd⟩ := mem_reachedAll.mp hd
        exact ih c hc hd (and operands h c hc)
  | or operands ih =>
      rcases List.mem_cons.mp hd with rfl | hd
      · exact h
      · obtain ⟨c, hc, hd⟩ := mem_reachedAll.mp hd
        exact ih c hc hd (or operands h c hc)
  | ifThen antecedent consequent _ ih =>
      rcases List.mem_cons.mp hd with rfl | hd
      · exact h
      · exact ih hd (ifThen antecedent consequent h)

/-- The variables of a tree which negation reaches are among those of the whole. -/
theorem occurrences_of_reached {c d : Constraint} (hd : d ∈ reached c) :
    ∀ v ∈ occurrences d, v ∈ occurrences c :=
  reached_induction (motive := fun e => ∀ v ∈ occurrences e, v ∈ occurrences c)
    (fun _ _ h v hv => h v (List.mem_append_left _ hv))
    (fun _ h _ hc v hv => h v (occurs_of_operand hc hv))
    (fun _ h _ hc v hv => h v (occurs_of_operand hc hv))
    (fun _ _ h v hv => h v (List.mem_append_right _ hv)) c hd fun _ hv => hv

/-- Negation is pushed past no more flags from a tree which it reaches. -/
theorem pushedFlags_of_reached {c d : Constraint} (hd : d ∈ reached c) :
    ∀ b ∈ pushedFlags d, b ∈ pushedFlags c :=
  reached_induction (motive := fun e => ∀ b ∈ pushedFlags e, b ∈ pushedFlags c)
    (fun _ _ h b hb => h b (List.mem_append_left _ hb))
    (fun _ h _ hc b hb => h b (pushedFlag_of_operand hc hb))
    (fun _ h _ hc b hb => h b (pushedFlag_of_operand hc hb))
    (fun _ _ h => h) c hd fun _ hb => hb

/-- A flag which negation is pushed past is that of a reification which it reaches. -/
theorem exists_reached_of_pushed (c : Constraint) {b : Variable} (hb : b ∈ pushedFlags c) :
    ∃ body, reified body b ∈ reached c := by
  induction c using treeInduction with
  | equality | ordering | linear | element | xor | not => cases hb
  | reified body flag ih =>
      rcases List.mem_append.mp hb with hb | hb
      · exact (ih hb).imp fun _ h => List.mem_cons_of_mem _ h
      · obtain rfl := List.mem_singleton.mp hb
        exact ⟨body, List.mem_cons_self⟩
  | and operands ih | or operands ih =>
      rw [pushedFlags, pushedFlagsAll_eq_flatMap, List.mem_flatMap] at hb
      obtain ⟨c, hc, hb⟩ := hb
      exact (ih c hc hb).imp fun _ h => List.mem_cons_of_mem _ (mem_reachedAll.mpr ⟨c, hc, h⟩)
  | ifThen antecedent consequent _ ih =>
      exact (ih hb).imp fun _ h => List.mem_cons_of_mem _ h

/-! ## Exact negation -/

/-- **EXACT NEGATION**: the negation is satisfied when the constraint is violated, violated when
    it is satisfied, and in no other case. -/
def NegatedExactly (F : Family) (c : Constraint) : Prop :=
  (entailment F c.negation = .satisfied ↔ entailment F c = .violated) ∧
    (entailment F c.negation = .violated ↔ entailment F c = .satisfied)

section Fixed

variable {F : Family} {σ : Assignment} {c : Constraint}

/-- On fixed variables, exactness is a matter of what holds. -/
theorem negatedExactly_iff (h : ∀ v ∈ occurrences c, (F v).fixedValue? = some (σ v)) :
    NegatedExactly F c ↔ holds σ c.negation = !holds σ c := by
  have hneg : ∀ v ∈ occurrences c.negation, (F v).fixedValue? = some (σ v) := by
    rwa [occurrences_negation]
  rw [NegatedExactly, entailment_of_fixed c h, entailment_of_fixed c.negation hneg]
  cases holds σ c <;> cases holds σ c.negation <;> simp [ofBool]

/-- A reification whose flag is neither 0 nor 1 does not hold, and neither does its negation. -/
theorem not_negatedExactly_of_stray {body : Constraint} {b : Variable}
    (h : ∀ v ∈ occurrences (.reified body b), (F v).fixedValue? = some (σ v))
    (hstray : ¬ (σ b = 0 ∨ σ b = 1)) : ¬ NegatedExactly F (.reified body b) := by
  obtain ⟨hzero, hone⟩ := not_or.mp hstray
  rw [negatedExactly_iff h, negation, holds, holds, beq_false_of_ne hzero, beq_false_of_ne hone]
  simp

/-- **NEGATION IS EXACT** on all the trees which it reaches, the whole one among them, if and only
    if the flags which it is pushed past are 0 or 1. -/
theorem negation_exact_iff (c : Constraint)
    (h : ∀ v ∈ occurrences c, (F v).fixedValue? = some (σ v)) :
    (∀ d ∈ reached c, NegatedExactly F d) ↔ ∀ b ∈ pushedFlags c, σ b = 0 ∨ σ b = 1 := by
  have hfixed : ∀ d ∈ reached c, ∀ v ∈ occurrences d, (F v).fixedValue? = some (σ v) :=
    fun d hd v hv => h v (occurrences_of_reached hd v hv)
  constructor
  · intro hexact b hb
    obtain ⟨body, hbody⟩ := exists_reached_of_pushed c hb
    by_contra hstray
    exact not_negatedExactly_of_stray (hfixed _ hbody) hstray (hexact _ hbody)
  · intro hflags d hd
    rw [negatedExactly_iff (hfixed d hd)]
    exact holds_negation_of_pushed d fun b hb => hflags b (pushedFlags_of_reached hd b hb)

end Fixed

/-- The first variable is 0, the second 1, and the third 5. -/
def strayValues : Assignment := fun v => [0, 1, 5][v.index]?.getD 0

/-- The variables are fixed to these values. -/
def strayFamily : Family := fun v => .between (strayValues v) (strayValues v)

/-- The first variable is 0 if and only if the flag is 1. -/
def zeroFlag (b : Variable) : Constraint := .reified (.equality ⟨0, 0⟩ .equal (.constant 0)) b

/-- The first flag below is 5 and the second is 1; negation is pushed past the second only. -/
def strayCondition : Constraint := .ifThen (zeroFlag ⟨0, 2⟩) (zeroFlag ⟨0, 1⟩)

/-- A flag of 5 violates a reification and its negation alike; where negation is not pushed past
    it, the negation is exact. -/
theorem strayFlag_is_not_negated_exactly :
    (∀ v ∈ occurrences strayCondition, (strayFamily v).fixedValue? = some (strayValues v)) ∧
      (∀ d ∈ reached strayCondition, NegatedExactly strayFamily d) ∧
      entailment strayFamily (zeroFlag ⟨0, 2⟩) = .violated ∧
      entailment strayFamily (zeroFlag ⟨0, 2⟩).negation = .violated ∧
      ¬ ∀ d ∈ reached (zeroFlag ⟨0, 2⟩), NegatedExactly strayFamily d := by
  refine ⟨by decide, (negation_exact_iff (σ := strayValues) _ (by decide)).mpr (by decide),
    by decide, by decide, fun hexact => ?_⟩
  have hflags := (negation_exact_iff (σ := strayValues) _ (by decide)).mp hexact
  exact absurd (hflags ⟨0, 2⟩ (by decide)) (by decide)

/-! ## Negating twice -/

mutual

/-- Whether negating the tree twice gives it back. -/
def restored : Constraint → Bool
  | equality .. => true
  | ordering .. => true
  | linear .. => true
  | element .. => true
  | reified body _ => restored body
  | and operands => restoredAll operands
  | or operands => restoredAll operands
  | xor _ => true
  | ifThen _ _ => false
  | not (element ..) => true
  | not (xor _) => true
  | not _ => false

/-- Whether negating several constraints twice gives all of them back. -/
def restoredAll : List Constraint → Bool
  | [] => true
  | c :: cs => restored c && restoredAll cs

end

/-- Two negations restore a list where they restore each of its members. -/
theorem restoredAll_eq_all (cs : List Constraint) : restoredAll cs = cs.all restored := by
  induction cs with
  | nil => rfl
  | cons c cs ih => rw [restoredAll, ih, List.all_cons]

/-- Only elements and exclusive disjunctions are negated by the node which negates. -/
theorem negation_eq_not_iff (c : Constraint) : c.negation = .not c ↔ restored (.not c) = true := by
  cases c with
  | not operand =>
      refine iff_of_false (fun h => ?_) (by simp [restored])
      have hsize := congrArg sizeOf h
      simp only [negation, not.sizeOf_spec] at hsize
      omega
  | _ => simp [negation, restored]

theorem negations_negations_eq_iff {cs : List Constraint}
    (h : ∀ c ∈ cs, c.negation.negation = c ↔ restored c = true) :
    negations (negations cs) = cs ↔ restoredAll cs = true := by
  have hmap : cs.map (negation ∘ negation) = cs ↔ ∀ c ∈ cs, c.negation.negation = id c := by
    rw [← List.map_inj_left, List.map_id]
    rfl
  rw [negations_eq_map, negations_eq_map, List.map_map, restoredAll_eq_all, List.all_eq_true, hmap]
  exact forall₂_congr h

/-- Negating twice gives back the trees without conditionals in which only elements and exclusive
    disjunctions are negated by a node. -/
theorem negation_negation_eq_iff (c : Constraint) :
    c.negation.negation = c ↔ restored c = true := by
  induction c using treeInduction with
  | equality x relation rhs | linear x offset relation z =>
      cases relation <;> simp [negation, restored, EqualityRelation.negated]
  | ordering x relation rhs =>
      cases relation <;> simp [negation, restored, OrderRelation.negated]
  | element => simp [negation, restored]
  | reified body flag ih => simp [negation, restored, ih]
  | and operands ih | or operands ih =>
      simp [negation, restored, negations_negations_eq_iff ih]
  | xor => simp [negation, restored]
  | ifThen => simp [negation, restored]
  | not operand => exact negation_eq_not_iff operand

/-- **VERDICTS ON NEGATIONS** on domains which are still open: that on the negation is that on the
    node which negates, and negating twice changes none, although the tree may be another. -/
theorem verdict_of_negation {F : Family} (c : Constraint) (hin : F.Inhabited (occurrences c))
    (hopen : ∀ b ∈ flags c, 0 ∈ F b ∨ 1 ∈ F b) :
    entailment F c.negation = (entailment F c).negated ∧
      entailment F (.not c) = (entailment F c).negated ∧
        entailment F c.negation.negation = entailment F c ∧
          (c.negation.negation = c ↔ restored c = true) := by
  have hin' : F.Inhabited (occurrences c.negation) := by rwa [occurrences_negation]
  have hopen' : FlagsOpen F c.negation := by rwa [FlagsOpen, flags_negation]
  have hnegation := entailment_negation c hin hopen
  refine ⟨hnegation, entailment.eq_def F (.not c), ?_, negation_negation_eq_iff c⟩
  rw [entailment_negation c.negation hin' hopen', hnegation, negated_negated]

/-- The third variable can be 0 or 5, and the others 0 or 1. -/
def openFamily : Family := fun v => if v.index = 2 then .ofValues [0, 5] else .between 0 1

/-- The verdict is negated for a condition with a flag that is 0 or 5, and comes back with the
    second negation. -/
theorem verdict_of_negation_of_openCondition :
    (openFamily.Inhabited (occurrences strayCondition) ∧
      ∀ b ∈ flags strayCondition, 0 ∈ openFamily b ∨ 1 ∈ openFamily b) ∧
    entailment openFamily strayCondition.negation =
        (entailment openFamily strayCondition).negated ∧
      entailment openFamily (.not strayCondition) =
        (entailment openFamily strayCondition).negated ∧
      entailment openFamily strayCondition.negation.negation =
        entailment openFamily strayCondition ∧
      (strayCondition.negation.negation = strayCondition ↔ restored strayCondition = true) := by
  have hin : openFamily.Inhabited (occurrences strayCondition) := fun v hv =>
    Domain.inhabited_of_not_isEmpty (by revert v; decide)
  have hopen : ∀ b ∈ flags strayCondition, 0 ∈ openFamily b ∨ 1 ∈ openFamily b := by decide
  exact ⟨⟨hin, hopen⟩, verdict_of_negation strayCondition hin hopen⟩

end Constraint

end ConstraintSolver
