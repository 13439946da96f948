import ConstraintSolver.Proofs.Step

/-! # Reasoning — how a tree is propagated

    The equations of the connectives, without the proofs which their
    definition carries for termination, and the induction that goes with
    them: a property of trees which passes from the operands and their
    negations to the tree holds of every tree (`reasoningInduction`).  With
    it, propagating a tree is a step on the variables of the tree
    (`built_propagate`). -/

namespace ConstraintSolver

/-- The variables of the two sides are on the list. -/
def LessOrEqual.Over (order : LessOrEqual) (S : List Variable) : Prop :=
  ∀ y, order.smaller = .variable y ∨ order.larger = .variable y → y ∈ S

namespace Constraint

open Step

/-! ## Equations -/

/-- Propagates the body or its negation once the flag is fixed, and fixes the
    flag once the body is decided. -/
def matchFlag (body : Constraint) (flag : Variable) : Step :=
  reading fun D =>
    match (D.get flag).fixedValue? with
    | some value => if value = 1 then propagate body else propagate body.negation
    | none =>
        match entailment D.get body with
        | .satisfied => narrow flag (.exactly 1)
        | .violated => narrow flag (.exactly 0)
        | .unknown => done

/-- A reification brings its flag to 0 or 1, and then matches body and flag. -/
theorem propagate_reified (body : Constraint) (flag : Variable) :
    propagate (.reified body flag) =
      andThen (narrow flag (.atLeast 0))
        (andThen (narrow flag (.atMost 1)) (matchFlag body flag)) := by
  rw [propagate]
  rfl

/-- A conjunction propagates its operands, one after the other. -/
theorem propagate_and (operands : List Constraint) :
    propagate (.and operands) = inOrder (operands.map propagate) := by
  rw [propagate, List.attach_map_val]

/-- Propagates the last operand which can still hold. -/
def propagateLast : List Constraint → Step
  | [] => fail .violated
  | [last] => propagate last
  | _ => done

/-- A disjunction propagates the last operand which can hold, unless one is known to hold. -/
theorem propagate_or (operands : List Constraint) :
    propagate (.or operands) =
      reading fun D =>
        if .satisfied ∈ entailments D.get operands then done
        else propagateLast (undecided D.get operands) := by
  rw [propagate]
  congr 1
  funext D
  congr 1
  unfold propagateLast
  split <;> simp_all

/-- An exclusive disjunction propagates the last operand which can hold, or the negations of all
    others once one is known to hold. -/
theorem propagate_xor (operands : List Constraint) :
    propagate (.xor operands) =
      reading fun D =>
        match (entailments D.get operands).count .satisfied with
        | 0 => propagateLast (undecided D.get operands)
        | 1 => inOrder ((undecided D.get operands).map fun c => propagate c.negation)
        | _ => fail .violated := by
  rw [propagate]
  congr 1
  funext D
  split
  · unfold propagateLast
    split <;> simp_all
  · simp_all
  · simp_all

/-- An implication propagates its consequent, or the negation of its antecedent. -/
theorem propagate_ifThen (antecedent consequent : Constraint) :
    propagate (.ifThen antecedent consequent) =
      reading fun D =>
        match entailment D.get antecedent with
        | .satisfied => propagate consequent
        | .violated => done
        | .unknown =>
            if entailment D.get consequent = .violated then propagate antecedent.negation
            else done :=
  (propagate.eq_def (.ifThen antecedent consequent)).trans rfl

/-- A negation fails if its operand is known to hold, and does nothing else. -/
theorem propagate_not (operand : Constraint) :
    propagate (.not operand) =
      reading fun D => if entailment D.get operand = .satisfied then fail .violated else done := by
  rw [propagate]

/-! ## Induction -/

/-- Induction along propagation: a tree may use the hypothesis for its operands
    and for their negations. -/
@[elab_as_elim]
theorem reasoningInduction {motive : Constraint → Prop}
    (equality : ∀ x relation rhs, motive (.equality x relation rhs))
    (ordering : ∀ x relation rhs, motive (.ordering x relation rhs))
    (linear : ∀ x offset relation z, motive (.linear x offset relation z))
    (element : ∀ index array rhs first, motive (.element index array rhs first))
    (reified : ∀ body flag, motive body → motive body.negation → motive (.reified body flag))
    (and : ∀ operands, (∀ c ∈ operands, motive c) → motive (.and operands))
    (or : ∀ operands, (∀ c ∈ operands, motive c) → motive (.or operands))
    (xor : ∀ operands, (∀ c ∈ operands, motive c ∧ motive c.negation) → motive (.xor operands))
    (ifThen : ∀ antecedent consequent, motive antecedent.negation → motive consequent →
      motive (.ifThen antecedent consequent))
    (not : ∀ operand, motive (.not operand)) (c : Constraint) : motive c := by
  -- a negation is no part of the tree but weighs as much as what it negates
  induction hw : c.weight using Nat.strongRecOn generalizing c with
  | ind n ih =>
      subst hw
      have smaller : ∀ d, d.weight < c.weight → motive d := fun d hd => ih d.weight hd d rfl
      cases c with
      | equality => exact equality ..
      | ordering => exact ordering ..
      | linear => exact linear ..
      | element => exact element ..
      | reified body flag =>
          refine reified body flag (smaller _ ?_) (smaller _ ?_)
          · rw [weight]
            omega
          · rw [weight, weight_negation]
            omega
      | and operands =>
          refine and operands fun c hc => smaller c ?_
          have := weight_le_weights hc
          rw [weight]
          omega
      | or operands =>
          refine or operands fun c hc => smaller c ?_
          have := weight_le_weights hc
          rw [weight]
          omega
      | xor operands =>
          refine xor operands fun c hc => ⟨smaller c ?_, smaller c.negation ?_⟩
          · have := weight_le_weights hc
            rw [weight]
            omega
          · have := weight_le_weights hc
            rw [weight, weight_negation]
            omega
      | ifThen antecedent consequent =>
          refine ifThen antecedent consequent (smaller _ ?_) (smaller _ ?_)
          · rw [weight, weight_negation]
            omega
          · rw [weight]
            omega
      | not operand => exact not operand

/-! ## Propagation is a step on the variables of the tree -/

section Views

variable {D E : Domains} {cs : List Constraint}

/-- The verdicts on operands are a matter of the domains of their variables. -/
theorem entailments_congr {F G : Family} (h : ∀ v ∈ occurrencesAll cs, F v = G v) :
    entailments F cs = entailments G cs := by
  rw [entailments_eq_map, entailments_eq_map]
  exact List.map_congr_left fun c hc =>
    entailment_congr c fun v hv => h v (occurs_of_operand hc hv)

/-- Which operands are undecided is a matter of the domains of their variables. -/
theorem undecided_congr {F G : Family} (h : ∀ v ∈ occurrencesAll cs, F v = G v) :
    undecided F cs = undecided G cs := by
  refine List.filter_congr fun c hc => ?_
  rw [entailment_congr c fun v hv => h v (occurs_of_operand hc hv)]

end Views

/-! ## Primitive constraints -/

section Primitive

variable {S : List Variable} {x y : Variable}

/-- Prunes `x` to the image of the domain of `y`. -/
def into (f : Domain → Domain) (y x : Variable) : Step :=
  reading fun D => narrow x (.within (f (D.get y)))

theorem built_into (hy : y ∈ S) (hx : x ∈ S) : Built S (into f y x) :=
  .reading (fun _ => .narrow _ hx) fun D E h => by rw [h y hy]

/-- Takes the value of `y`, moved by an offset, away from `x` once `y` is
    fixed. -/
def apart (offset : Int) (y x : Variable) : Step :=
  reading fun D =>
    match (D.get y).fixedValue? with
    | some value => if InRange (value + offset) then narrow x (.except (value + offset)) else done
    | none => done

theorem built_apart (hy : y ∈ S) (hx : x ∈ S) : Built S (apart offset y x) := by
  refine .reading (fun D => ?_) fun D E h => by rw [h y hy]
  split
  · exact Built.ite (.narrow _ hx) .done
  · exact .done

/-- Brings the smaller side below the upper bound of the larger one. -/
def lowerSmaller (order : LessOrEqual) : Step :=
  reading fun D =>
    match order.smaller with
    | .variable v => narrow v (.atMost (saturate (order.larger.upperBound D.get - order.gap)))
    | .constant value =>
        if saturate (order.larger.upperBound D.get - order.gap) < value then fail .violated
        else done

/-- Brings the larger side above the lower bound of the smaller one. -/
def raiseLarger (order : LessOrEqual) : Step :=
  reading fun D =>
    match order.larger with
    | .variable v => narrow v (.atLeast (saturate (order.smaller.lowerBound D.get + order.gap)))
    | .constant value =>
        if saturate (order.smaller.lowerBound D.get + order.gap) > value then fail .violated
        else done

variable {order : LessOrEqual}

theorem built_lowerSmaller (hover : order.Over S) : Built S (lowerSmaller order) := by
  refine .reading (fun D => ?_) fun D E h => ?_
  · cases hsm : order.smaller with
    | «variable» v => exact .narrow _ (hover v (.inl hsm))
    | constant value => exact Built.ite (.fail _) .done
  · rw [Term.upperBound_congr fun y hy => h y (hover y (.inr hy))]

theorem built_raiseLarger (hover : order.Over S) : Built S (raiseLarger order) := by
  refine .reading (fun D => ?_) fun D E h => ?_
  · cases hla : order.larger with
    | «variable» v => exact .narrow _ (hover v (.inr hla))
    | constant value => exact Built.ite (.fail _) .done
  · rw [Term.lowerBound_congr fun y hy => h y (hover y (.inl hy))]

/-- Equal variables carry their domains over to each other. -/
theorem propagateEquality_equal (x y : Variable) :
    propagateEquality x .equal (.variable y) =
      if y = x then done else (into id y x).andThen (into id x y) := rfl

/-- Different variables are kept apart, which is impossible for one variable. -/
theorem propagateEquality_notEqual (x y : Variable) :
    propagateEquality x .notEqual (.variable y) =
      if y = x then fail .violated else (apart 0 x y).andThen (apart 0 y x) := by
  have hapart : ∀ x y, apart 0 x y = reading fun D =>
      match (D.get x).fixedValue? with
      | some value => narrow y (.except value)
      | none => done := by
    intro x y
    unfold apart
    congr 1
    funext D
    cases hfix : (D.get x).fixedValue? with
    | none => rfl
    | some value =>
        have hr := Domain.inRange_of_mem (Domain.fixedValue?_eq_some.mp hfix).1
        simp only [Int.add_zero, if_pos hr]
  rw [hapart, hapart]
  rfl

/-- An order lowers the one side and raises the other. -/
theorem propagateOrder_eq (order : LessOrEqual) :
    propagateOrder order =
      if order.smaller = order.larger then if order.gap = 0 then done else fail .violated
      else (lowerSmaller order).andThen (raiseLarger order) := rfl

/-- Makes the element at a fixed index equal to the right-hand side. -/
def joinSelected (index : Variable) (array : List Variable) (rhs : Variable) (first : Int) : Step :=
  reading fun D =>
    match (D.get index).fixedValue?.bind (elementAt? array first) with
    | some selected => (narrow selected (.within (D.get rhs))).andThen (into id selected rhs)
    | none => done

/-- The steps of an element constraint. -/
def elementSteps (index : Variable) (array : List Variable) (rhs : Variable) (first : Int) :
    List Step :=
  [narrow index (.atLeast first),
    narrow index (.atMost (saturate (first + Int.ofNat array.length - 1))),
    reading fun D =>
      narrow index (.within (Domain.ofValues (supportedIndices D.get (D.get rhs) array first))),
    reading fun D => narrow rhs (.within (elementValues D.get (D.get index) array first)),
    joinSelected index array rhs first]

/-- An element goes through its steps. -/
theorem propagateElement_eq (index : Variable) (array : List Variable) (rhs : Variable)
    (first : Int) :
    propagateElement index array rhs first = inOrder (elementSteps index array rhs first) := rfl

/-- A sum carries the shifted domain over, and then the other one back. -/
theorem propagateLinear_equal (x : Variable) (offset : Int) (z : Variable) :
    propagateLinear x offset .equal z =
      if x = z then if offset = 0 then done else fail .violated
      else (into (·.shift offset) x z).andThen (into (·.shift (saturate (-offset))) z x) := by
  unfold propagateLinear
  split
  · by_cases h0 : offset = 0 <;> simp [h0]
  · rfl

/-- Unequal sums are kept apart by the offset. -/
theorem propagateLinear_notEqual (x : Variable) (offset : Int) (z : Variable) :
    propagateLinear x offset .notEqual z =
      if x = z then if offset = 0 then fail .violated else done
      else (apart offset x z).andThen (apart (-offset) z x) := by
  unfold propagateLinear
  split
  · by_cases h0 : offset = 0 <;> simp [h0]
  · rfl

/-- An equality prunes its variables only. -/
theorem built_propagateEquality (x : Variable) (relation : EqualityRelation) (rhs : Term) :
    Built (occurrences (.equality x relation rhs)) (propagateEquality x relation rhs) := by
  cases rhs with
  | constant value => cases relation <;> exact .narrow _ List.mem_cons_self
  | «variable» y =>
      have hx : x ∈ [x, y] := by simp
      have hy : y ∈ [x, y] := by simp
      cases relation with
      | equal =>
          rw [propagateEquality_equal]
          exact Built.ite .done (.andThen (built_into hy hx) (built_into hx hy))
      | notEqual =>
          rw [propagateEquality_notEqual]
          exact Built.ite (.fail _) (.andThen (built_apart hx hy) (built_apart hy hx))

/-- An order prunes the variables of its sides only. -/
theorem built_propagateOrder (hover : order.Over S) : Built S (propagateOrder order) :=
  Built.ite (Built.ite .done (.fail _))
    (.andThen (built_lowerSmaller hover) (built_raiseLarger hover))

/-- Both sides of a normal form are sides of the order. -/
theorem over_normalForm (x : Variable) (relation : OrderRelation) (rhs : Term) :
    LessOrEqual.Over (relation.normalForm x rhs) (occurrences (.ordering x relation rhs)) := by
  intro y h
  cases relation <;> cases rhs <;> simp_all [OrderRelation.normalForm, occurrences] <;> grind

/-- A sum prunes its variables only. -/
theorem built_propagateLinear (x : Variable) (offset : Int) (relation : EqualityRelation)
    (z : Variable) : Built [x, z] (propagateLinear x offset relation z) := by
  have hx : x ∈ [x, z] := by simp
  have hz : z ∈ [x, z] := by simp
  cases relation with
  | equal =>
      rw [propagateLinear_equal]
      exact Built.ite (Built.ite .done (.fail _)) (.andThen (built_into hx hz) (built_into hz hx))
  | notEqual =>
      rw [propagateLinear_notEqual]
      exact Built.ite (Built.ite (.fail _) .done)
        (.andThen (built_apart hx hz) (built_apart hz hx))

end Primitive

/-- The values of an element are a matter of the domains in its array. -/
theorem elementValues_congr {F G : Family} {indices : Domain} {array : List Variable}
    (h : ∀ a ∈ array, F a = G a) (first : Int) :
    elementValues F indices array first = elementValues G indices array first := by
  induction array generalizing first with
  | nil => rfl
  | cons a rest ih =>
      rw [elementValues, elementValues, h a List.mem_cons_self,
        ih (fun b hb => h b (List.mem_cons_of_mem _ hb))]

theorem built_joinSelected {S : List Variable} {index : Variable} {array : List Variable}
    {rhs : Variable} {first : Int} (hindex : index ∈ S) (harray : ∀ a ∈ array, a ∈ S)
    (hrhs : rhs ∈ S) : Built S (joinSelected index array rhs first) := by
  refine .reading (fun D => ?_) fun D E h => by rw [h index hindex, h rhs hrhs]
  split
  · rename_i selected hsel
    obtain ⟨i, _, hi⟩ := Option.bind_eq_some_iff.mp hsel
    have hselected := harray selected (mem_of_elementAt? hi)
    exact .andThen (.narrow _ hselected) (built_into hselected hrhs)
  · exact .done

/-- Each step of an element prunes its variables only. -/
theorem built_elementSteps (index : Variable) (array : List Variable) (rhs : Variable)
    (first : Int) : ∀ p ∈ elementSteps index array rhs first,
      Built (occurrences (.element index array rhs first)) p := by
  have hindex : index ∈ occurrences (.element index array rhs first) := List.mem_cons_self
  have hrhs : rhs ∈ occurrences (.element index array rhs first) := by simp [occurrences]
  have harray : ∀ a ∈ array, a ∈ occurrences (.element index array rhs first) :=
    fun a ha => by simp [occurrences, ha]
  simp only [elementSteps, List.forall_mem_cons, List.not_mem_nil, false_implies, implies_true,
    and_true]
  refine ⟨.narrow _ hindex, .narrow _ hindex, .reading (fun D => .narrow _ hindex) fun D E h => ?_,
    .reading (fun D => .narrow _ hrhs) fun D E h => ?_, built_joinSelected hindex harray hrhs⟩
  · rw [h rhs hrhs, supportedIndices_congr fun a ha => h a (harray a ha)]
  · rw [h index hindex, elementValues_congr fun a ha => h a (harray a ha)]

/-- An element prunes its variables only. -/
theorem built_propagateElement (index : Variable) (array : List Variable) (rhs : Variable)
    (first : Int) : Built (occurrences (.element index array rhs first))
      (propagateElement index array rhs first) :=
  Built.inOrder (built_elementSteps index array rhs first)

/-- The last operand is propagated, or none. -/
theorem built_propagateLast {S : List Variable} {cs : List Constraint}
    (h : ∀ c ∈ cs, Built S (propagate c)) : Built S (propagateLast cs) := by
  unfold propagateLast
  split
  · exact .fail _
  · exact h _ List.mem_cons_self
  · exact .done

/-- Matching prunes the flag, or what the body or its negation prunes. -/
theorem built_matchFlag {S : List Variable} {body : Constraint} {flag : Variable}
    (hflag : flag ∈ S) (hsub : ∀ v ∈ occurrences body, v ∈ S) (hbody : Built S (propagate body))
    (hneg : Built S (propagate body.negation)) : Built S (matchFlag body flag) := by
  refine .reading (fun D => ?_) fun D E h => ?_
  · split
    · exact Built.ite hbody hneg
    · split
      · exact .narrow _ hflag
      · exact .narrow _ hflag
      · exact .done
  · rw [h flag hflag, entailment_congr body fun v hv => h v (hsub v hv)]

/-- **LOCALITY OF PROPAGATION**: propagating a tree prunes the variables of the
    tree, and looks at no others. -/
theorem built_propagate (c : Constraint) : Built (occurrences c) (propagate c) := by
  induction c using reasoningInduction with
  | equality x relation rhs =>
      rw [propagate]
      exact built_propagateEquality x relation rhs
  | ordering x relation rhs =>
      rw [propagate]
      exact built_propagateOrder (over_normalForm x relation rhs)
  | linear x offset relation z =>
      rw [propagate]
      exact built_propagateLinear x offset relation z
  | element index array rhs first =>
      rw [propagate]
      exact built_propagateElement index array rhs first
  | reified body flag ihb ihn =>
      have hflag : flag ∈ occurrences (.reified body flag) :=
        List.mem_append_right _ (List.mem_singleton_self _)
      have hsub : ∀ v ∈ occurrences body, v ∈ occurrences (.reified body flag) :=
        fun v hv => List.mem_append_left _ hv
      -- negation has the same variables, so both branches stay inside the scope of the flag
      rw [occurrences_negation] at ihn
      rw [propagate_reified]
      exact .andThen (.narrow _ hflag) (.andThen (.narrow _ hflag)
        (built_matchFlag hflag hsub (ihb.mono hsub) (ihn.mono hsub)))
  | and operands ih =>
      rw [propagate_and]
      refine Built.inOrder fun p hp => ?_
      obtain ⟨c, hc, rfl⟩ := List.mem_map.mp hp
      exact (ih c hc).mono fun v hv => occurs_of_operand hc hv
  | or operands ih =>
      rw [propagate_or]
      -- which operands are undecided is read off their variables, all of which are in the scope
      refine .reading (fun D => Built.ite .done (built_propagateLast fun c hc => ?_))
        fun D E h => ?_
      · have hc := mem_of_mem_undecided hc
        exact (ih c hc).mono fun v hv => occurs_of_operand hc hv
      · rw [entailments_congr h, undecided_congr h]
  | xor operands ih =>
      rw [propagate_xor]
      refine .reading (fun D => ?_) fun D E h => ?_
      · split
        · refine built_propagateLast fun c hc => ?_
          have hc := mem_of_mem_undecided hc
          exact (ih c hc).1.mono fun v hv => occurs_of_operand hc hv
        · refine Built.inOrder fun p hp => ?_
          obtain ⟨c, hc, rfl⟩ := List.mem_map.mp hp
          have hc := mem_of_mem_undecided hc
          have hn := (ih c hc).2
          rw [occurrences_negation] at hn
          exact hn.mono fun v hv => occurs_of_operand hc hv
        · exact .fail _
      · rw [entailments_congr h, undecided_congr h]
  | ifThen antecedent consequent iha ihc =>
      have hsuba : ∀ v ∈ occurrences antecedent, v ∈ occurrences (.ifThen antecedent consequent) :=
        fun v hv => List.mem_append_left _ hv
      have hsubc : ∀ v ∈ occurrences consequent, v ∈ occurrences (.ifThen antecedent consequent) :=
        fun v hv => List.mem_append_right _ hv
      rw [occurrences_negation] at iha
      rw [propagate_ifThen]
      refine .reading (fun D => ?_) fun D E h => ?_
      · split
        · exact ihc.mono hsubc
        · exact .done
        · exact Built.ite (iha.mono hsuba) .done
      · rw [entailment_congr antecedent fun v hv => h v (hsuba v hv),
          entailment_congr consequent fun v hv => h v (hsubc v hv)]
  | not operand =>
      rw [propagate_not]
      refine .reading (fun D => Built.ite (.fail _) .done) fun D E h => ?_
      rw [entailment_congr operand h]

end Constraint

end ConstraintSolver
