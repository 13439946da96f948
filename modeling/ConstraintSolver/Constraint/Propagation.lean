import ConstraintSolver.Constraint.Entailment
import ConstraintSolver.Domains

/-! # Propagation — removing values no solution can use

    Propagating a constraint is a step on the domains: it prunes them, or
    finds an inconsistency.  The logical connectives propagate an operand,
    or the negation of one, when the verdicts on the others leave no choice.
    The recursion ends because every such tree weighs less than the whole.

    A step that succeeds has narrowed the domains (`narrows_propagate`): it
    added no value, and removed one if it recorded a change. -/

namespace ConstraintSolver

/-- Why propagation failed. -/
inductive Inconsistency where
  /-- A domain became empty. -/
  | emptyDomain
  /-- A constraint is violated although no domain is empty. -/
  | violated
  deriving DecidableEq, Repr

/-- The name of an inconsistency. -/
def Inconsistency.name : Inconsistency → String
  | .emptyDomain => "EmptyDomain"
  | .violated => "Violated"

/-- A change of the domains which may find an inconsistency. -/
abbrev Step := Domains → Except Inconsistency Unit × Domains

namespace Step

/-- Changes nothing. -/
def done : Step := fun D => (.ok (), D)

/-- Finds an inconsistency. -/
def fail (why : Inconsistency) : Step := fun D => (.error why, D)

/-- One step after another; an inconsistency ends both. -/
def andThen (p q : Step) : Step := fun D =>
  match p D with
  | (.ok (), E) => q E
  | (.error why, E) => (.error why, E)

/-- A step which depends on the domains. -/
def reading (p : Domains → Step) : Step := fun D => p D D

/-- Steps in order. -/
def inOrder : List Step → Step
  | [] => done
  | p :: ps => p.andThen (inOrder ps)

/-- Prunes a variable. -/
def narrow (v : Variable) (p : Pruning) : Step := fun D =>
  match D.prune v p with
  | (.emptied, E) => (.error .emptyDomain, E)
  | (_, E) => (.ok (), E)

/-- Whatever the domains, a success narrows them. -/
def Narrowing (p : Step) : Prop := ∀ D E, p D = (.ok (), E) → D.Narrows E

theorem narrowing_done : Narrowing done := by
  intro D E h
  cases h
  exact Domains.Narrows.refl D

theorem narrowing_fail (why : Inconsistency) : Narrowing (fail why) := by
  intro D E h
  cases h

/-- Two steps in a row only remove values if each of them does. -/
theorem narrowing_andThen {p q : Step} (hp : Narrowing p) (hq : Narrowing q) :
    Narrowing (p.andThen q) := by
  intro D E h
  unfold andThen at h
  split at h
  · rename_i F hF
    exact (hp D F hF).trans (hq F E h)
  · cases h

/-- Looking at the domains first adds no value. -/
theorem narrowing_reading {p : Domains → Step} (h : ∀ D, Narrowing (p D)) :
    Narrowing (reading p) :=
  fun D E hE => h D D E hE

/-- Steps in a row only remove values if each of them does. -/
theorem narrowing_inOrder {ps : List Step} (h : ∀ p ∈ ps, Narrowing p) :
    Narrowing (inOrder ps) := by
  induction ps with
  | nil => exact narrowing_done
  | cons p ps ih =>
      exact narrowing_andThen (h p (List.mem_cons_self ..))
        (ih fun q hq => h q (List.mem_cons_of_mem _ hq))

/-- A pruning only removes values. -/
theorem narrowing_narrow (v : Variable) (p : Pruning) : Narrowing (narrow v p) := by
  intro D E h
  unfold narrow at h
  split at h
  · cases h
  · rename_i effect F hne hF
    cases h
    exact Domains.narrows_prune hF hne

end Step

namespace Constraint

open Step

/-! ## Primitive constraints -/

/-- Makes `x` and `rhs` equal, or unequal. -/
def propagateEquality (x : Variable) (relation : EqualityRelation) (rhs : Term) : Step :=
  match relation, rhs with
  | .equal, .constant value => narrow x (.exactly value)
  | .notEqual, .constant value => narrow x (.except value)
  | .equal, .variable y =>
      if y = x then done
      else
        andThen (reading fun D => narrow x (.within (D.get y)))
          (reading fun D => narrow y (.within (D.get x)))
  | .notEqual, .variable y =>
      if y = x then fail .violated
      else
        andThen
          (reading fun D =>
            match (D.get x).fixedValue? with
            | some value => narrow y (.except value)
            | none => done)
          (reading fun D =>
            match (D.get y).fixedValue? with
            | some value => narrow x (.except value)
            | none => done)

/-- Brings the upper bound of the smaller and the lower bound of the larger
    side of `smaller + gap ≤ larger` in line. -/
def propagateOrder (order : LessOrEqual) : Step :=
  if order.smaller = order.larger then
    if order.gap = 0 then done else fail .violated
  else
    andThen
      (reading fun D =>
        let bound := saturate (order.larger.upperBound D.get - order.gap)
        match order.smaller with
        | .variable v => narrow v (.atMost bound)
        | .constant value => if bound < value then fail .violated else done)
      (reading fun D =>
        let bound := saturate (order.smaller.lowerBound D.get + order.gap)
        match order.larger with
        | .variable v => narrow v (.atLeast bound)
        | .constant value => if bound > value then fail .violated else done)

/-- Makes `x + offset` and `z` equal, or unequal.  A value which needs more
    than 32 bits is in no domain and need not be removed. -/
def propagateLinear (x : Variable) (offset : Int) (relation : EqualityRelation) (z : Variable) :
    Step :=
  if x = z then
    match relation, decide (offset = 0) with
    | .equal, true => done
    | .notEqual, false => done
    | _, _ => fail .violated
  else
    match relation with
    | .equal =>
        andThen (reading fun D => narrow z (.within ((D.get x).shift offset)))
          (reading fun D => narrow x (.within ((D.get z).shift (saturate (-offset)))))
    | .notEqual =>
        andThen
          (reading fun D =>
            match (D.get x).fixedValue? with
            | some value =>
                if InRange (value + offset) then narrow z (.except (value + offset)) else done
            | none => done)
          (reading fun D =>
            match (D.get z).fixedValue? with
            | some value =>
                if InRange (value - offset) then narrow x (.except (value - offset)) else done
            | none => done)

/-- The values which the elements at some of the indices, counted from the
    given one, can take together. -/
def elementValues (dom : Variable → Domain) (indices : Domain) : List Variable → Int → Domain
  | [], _ => ∅
  | a :: rest, index =>
      if indices.contains index then elementValues dom indices rest (index + 1) ∪ dom a
      else elementValues dom indices rest (index + 1)

/-- Keeps the indices whose element can be equal to `rhs`, and the values of
    `rhs` which an element can take; once the index is fixed the element is
    made equal to `rhs`. -/
def propagateElement (index : Variable) (array : List Variable) (rhs : Variable) (first : Int) :
    Step :=
  inOrder
    [narrow index (.atLeast first),
      narrow index (.atMost (saturate (first + Int.ofNat array.length - 1))),
      reading fun D =>
        narrow index (.within (Domain.ofValues (supportedIndices D.get (D.get rhs) array first))),
      reading fun D =>
        narrow rhs (.within (elementValues D.get (D.get index) array first)),
      reading fun D =>
        match (D.get index).fixedValue?.bind (elementAt? array first) with
        | some selected =>
            andThen (narrow selected (.within (D.get rhs)))
              (reading fun E => narrow rhs (.within (E.get selected)))
        | none => done]

/-! ## Trees -/

/-- Removes values which no assignment that satisfies the constraint uses. -/
def propagate : Constraint → Step
  | equality x relation rhs => propagateEquality x relation rhs
  | ordering x relation rhs => propagateOrder (relation.normalForm x rhs)
  | linear x offset relation z => propagateLinear x offset relation z
  | element index array rhs first => propagateElement index array rhs first
  | reified body flag =>
      andThen (narrow flag (.atLeast 0))
        (andThen (narrow flag (.atMost 1))
          (reading fun D =>
            match (D.get flag).fixedValue? with
            | some value => if value = 1 then propagate body else propagate body.negation
            | none =>
                match entailment D.get body with
                | .satisfied => narrow flag (.exactly 1)
                | .violated => narrow flag (.exactly 0)
                | .unknown => done))
  | and operands => inOrder (operands.attach.map fun c => propagate c.1)
  | or operands =>
      reading fun D =>
        if .satisfied ∈ entailments D.get operands then done
        else
          match _h : undecided D.get operands with
          | [] => fail .violated
          | [last] => propagate last
          | _ => done
  | xor operands =>
      reading fun D =>
        match (entailments D.get operands).count .satisfied with
        | 0 =>
            match _h : undecided D.get operands with
            | [] => fail .violated
            | [last] => propagate last
            | _ => done
        | 1 => inOrder ((undecided D.get operands).attach.map fun c => propagate c.1.negation)
        | _ => fail .violated
  | ifThen antecedent consequent =>
      reading fun D =>
        match entailment D.get antecedent with
        | .satisfied => propagate consequent
        | .violated => done
        | .unknown =>
            if entailment D.get consequent = .violated then propagate antecedent.negation
            else done
  | not operand =>
      reading fun D =>
        if entailment D.get operand = .satisfied then fail .violated else done
termination_by c => c.weight
decreasing_by
  all_goals simp only [weight, weight_negation]
  · omega
  · omega
  · have := weight_le_weights c.2
    omega
  · have hm := mem_of_mem_undecided (_h ▸ List.mem_singleton_self last)
    have := weight_le_weights hm
    omega
  · have hm := mem_of_mem_undecided (_h ▸ List.mem_singleton_self last)
    have := weight_le_weights hm
    omega
  · have := weight_le_weights (mem_of_mem_undecided c.2)
    omega
  · omega
  · omega

/-! ## Propagation only removes values -/

theorem narrowing_ite {c : Prop} [Decidable c] {p q : Step} (hp : Narrowing p)
    (hq : Narrowing q) : Narrowing (if c then p else q) := by
  split
  · exact hp
  · exact hq

/-- An equality only removes values. -/
theorem narrowing_propagateEquality (x : Variable) (relation : EqualityRelation) (rhs : Term) :
    Narrowing (propagateEquality x relation rhs) := by
  unfold propagateEquality
  split
  · exact narrowing_narrow _ _
  · exact narrowing_narrow _ _
  · exact narrowing_ite narrowing_done (narrowing_andThen
      (narrowing_reading fun _ => narrowing_narrow _ _)
      (narrowing_reading fun _ => narrowing_narrow _ _))
  · refine narrowing_ite (narrowing_fail _) (narrowing_andThen
      (narrowing_reading fun D => ?_) (narrowing_reading fun D => ?_))
    all_goals
      split
      · exact narrowing_narrow _ _
      · exact narrowing_done

/-- An order only removes values. -/
theorem narrowing_propagateOrder (order : LessOrEqual) :
    Narrowing (propagateOrder order) := by
  unfold propagateOrder
  refine narrowing_ite (narrowing_ite narrowing_done (narrowing_fail _)) (narrowing_andThen
    (narrowing_reading fun D => ?_) (narrowing_reading fun D => ?_))
  all_goals
    simp only
    split
    · exact narrowing_narrow _ _
    · exact narrowing_ite (narrowing_fail _) narrowing_done

/-- A sum only removes values. -/
theorem narrowing_propagateLinear (x : Variable) (offset : Int) (relation : EqualityRelation)
    (z : Variable) : Narrowing (propagateLinear x offset relation z) := by
  unfold propagateLinear
  refine narrowing_ite ?_ ?_
  · split
    · exact narrowing_done
    · exact narrowing_done
    · exact narrowing_fail _
  · split
    · exact narrowing_andThen (narrowing_reading fun _ => narrowing_narrow _ _)
        (narrowing_reading fun _ => narrowing_narrow _ _)
    · refine narrowing_andThen (narrowing_reading fun D => ?_) (narrowing_reading fun D => ?_)
      all_goals
        split
        · exact narrowing_ite (narrowing_narrow _ _) narrowing_done
        · exact narrowing_done

/-- An element only removes values. -/
theorem narrowing_propagateElement (index : Variable) (array : List Variable) (rhs : Variable)
    (first : Int) : Narrowing (propagateElement index array rhs first) := by
  refine narrowing_andThen (narrowing_narrow _ _) (narrowing_andThen (narrowing_narrow _ _)
    (narrowing_andThen (narrowing_reading fun _ => narrowing_narrow _ _)
      (narrowing_andThen (narrowing_reading fun _ => narrowing_narrow _ _)
        (narrowing_andThen (narrowing_reading fun D => ?_) narrowing_done))))
  split
  · exact narrowing_andThen (narrowing_narrow _ _) (narrowing_reading fun _ => narrowing_narrow _ _)
  · exact narrowing_done

/-- **PROPAGATION NARROWS**: whatever the tree, a success adds no value and
    has removed one if it recorded a change. -/
theorem narrowing_propagate (c : Constraint) : Narrowing (propagate c) := by
  fun_induction propagate c with
  | case1 x relation rhs => exact narrowing_propagateEquality _ _ _
  | case2 x relation rhs => exact narrowing_propagateOrder _
  | case3 x offset relation z => exact narrowing_propagateLinear _ _ _ _
  | case4 index array rhs first => exact narrowing_propagateElement _ _ _ _
  | case5 body flag ih1 ih2 =>
      -- the two restrictions of the flag come first
      refine narrowing_andThen (narrowing_narrow _ _) (narrowing_andThen (narrowing_narrow _ _)
        (narrowing_reading fun D => ?_))
      split
      · exact narrowing_ite ih1 ih2
      · split
        · exact narrowing_narrow _ _
        · exact narrowing_narrow _ _
        · exact narrowing_done
  | case6 operands ih =>
      refine narrowing_inOrder fun p hp => ?_
      obtain ⟨c, _, rfl⟩ := List.mem_map.mp hp
      exact ih c
  | case7 operands ih =>
      refine narrowing_reading fun D => narrowing_ite narrowing_done ?_
      split
      · exact narrowing_fail _
      · rename_i last h
        exact ih D last h
      · exact narrowing_done
  | case8 operands ih1 ih2 =>
      refine narrowing_reading fun D => ?_
      split
      · split
        · exact narrowing_fail _
        · rename_i last h
          exact ih1 D last h
        · exact narrowing_done
      · refine narrowing_inOrder fun p hp => ?_
        obtain ⟨c, _, rfl⟩ := List.mem_map.mp hp
        exact ih2 D c
      · exact narrowing_fail _
  | case9 antecedent consequent ih1 ih2 =>
      refine narrowing_reading fun D => ?_
      split
      · exact ih1
      · exact narrowing_done
      · exact narrowing_ite ih2 narrowing_done
  | case10 operand =>
      exact narrowing_reading fun D => narrowing_ite (narrowing_fail _) narrowing_done

end Constraint

end ConstraintSolver
