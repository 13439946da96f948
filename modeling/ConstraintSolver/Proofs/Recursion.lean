import ConstraintSolver.Proofs.Reasoning
import ConstraintSolver.Proofs.Semantics

/-! # Recursion — why propagating a tree comes to an end

    Propagation calls itself on operands and on negations of operands, and
    negation calls itself.  A negation is built when it is needed: it is no
    part of the tree, and it may have more nodes than the whole
    (`grown_by_negation`).  What goes down with every call is the weight,
    the number of nodes that are no negations (`weight_eq_countP`).

    To tell what is called, the equations of `negation` and `propagate` are
    written with their calls left open (`negationBy`, `propagateBy`).  A call
    may be answered, or not.  If the calls on lighter trees are answered then
    a tree is answered (`propagateBy_eq`), so it calls nothing else
    (`Activation.Calls.lighter`), and as many nested calls as the weight says
    are enough (`propagateWithin_eq`). -/

namespace ConstraintSolver

open Step Constraint

/-! ## Steps that may not come to an end -/

/-- A change of the domains which may not come to an end. -/
abbrev Attempt := Domains → Option (Except Inconsistency Unit × Domains)

namespace Attempt

variable {p q : Step}

def ofStep (p : Step) : Attempt := fun D => some (p D)

/-- One attempt after another; an inconsistency ends both. -/
def andThen (p q : Attempt) : Attempt := fun D =>
  match p D with
  | none => none
  | some (.ok (), E) => q E
  | some (.error why, E) => some (.error why, E)

/-- An attempt which depends on the domains. -/
def reading (p : Domains → Attempt) : Attempt := fun D => p D D

/-- Attempts in order. -/
def inOrder : List Attempt → Attempt
  | [] => ofStep done
  | p :: ps => p.andThen (inOrder ps)

theorem ofStep_andThen : (ofStep p).andThen (ofStep q) = ofStep (Step.andThen p q) := by
  funext D
  unfold andThen ofStep Step.andThen
  rcases p D with ⟨_ | _, E⟩ <;> rfl

/-- What depends on the domains and comes to an end for any domains. -/
theorem reading_eq {p : Domains → Attempt} {q : Domains → Step} (h : ∀ D, p D = ofStep (q D)) :
    reading p = ofStep (Step.reading q) := by
  funext D
  rw [reading, h D]
  rfl

theorem inOrder_map {α : Type} (steps : α → Step) (xs : List α) :
    inOrder (xs.map fun x => ofStep (steps x)) = ofStep (Step.inOrder (xs.map steps)) := by
  induction xs with
  | nil => rfl
  | cons x xs ih => rw [List.map_cons, inOrder, ih, ofStep_andThen, List.map_cons, Step.inOrder]

end Attempt

namespace Constraint

open Attempt

/-! ## Nodes -/

mutual

/-- The tree and all the trees in it. -/
def subtrees : Constraint → List Constraint
  | equality x relation rhs => [equality x relation rhs]
  | ordering x relation rhs => [ordering x relation rhs]
  | linear x offset relation z => [linear x offset relation z]
  | element index array rhs first => [element index array rhs first]
  | reified body flag => reified body flag :: subtrees body
  | and operands => and operands :: subtreesAll operands
  | or operands => or operands :: subtreesAll operands
  | xor operands => xor operands :: subtreesAll operands
  | ifThen antecedent consequent =>
      ifThen antecedent consequent :: (subtrees antecedent ++ subtrees consequent)
  | not operand => not operand :: subtrees operand

/-- The trees in several constraints. -/
def subtreesAll : List Constraint → List Constraint
  | [] => []
  | c :: cs => subtrees c ++ subtreesAll cs

end

/-- Whether the tree is a negation. -/
def isNot : Constraint → Bool
  | not _ => true
  | _ => false

mutual

/-- **THE WEIGHT** of a tree is the number of its nodes that are no negations. -/
theorem weight_eq_countP : (c : Constraint) → c.weight = c.subtrees.countP fun d => !d.isNot
  | .equality .. => rfl
  | .ordering .. => rfl
  | .linear .. => rfl
  | .element .. => rfl
  | .reified body _ => by rw [weight, subtrees, List.countP_cons_of_pos rfl, weight_eq_countP body]
  | .and operands => by
      rw [weight, subtrees, List.countP_cons_of_pos rfl, weights_eq_countP operands]
  | .or operands => by
      rw [weight, subtrees, List.countP_cons_of_pos rfl, weights_eq_countP operands]
  | .xor operands => by
      rw [weight, subtrees, List.countP_cons_of_pos rfl, weights_eq_countP operands]
  | .ifThen antecedent consequent => by
      rw [weight, subtrees, List.countP_cons_of_pos rfl, List.countP_append,
        weight_eq_countP antecedent, weight_eq_countP consequent]
  | .not operand => by
      rw [weight, subtrees, List.countP_cons_of_neg Bool.false_ne_true, weight_eq_countP operand]

/-- The weight of a list counts the trees in it that are not negations. -/
theorem weights_eq_countP :
    (cs : List Constraint) → weights cs = (subtreesAll cs).countP fun d => !d.isNot
  | [] => rfl
  | c :: cs => by
      rw [weights, subtreesAll, List.countP_append, weight_eq_countP c, weights_eq_countP cs]

end

/-- Every tree has a node that is no negation. -/
theorem weight_pos (c : Constraint) : 0 < c.weight := by
  induction c using treeInduction with
  | not operand ih => rwa [weight]
  | equality | ordering | linear | element => exact Nat.one_pos
  | reified | and | or | xor | ifThen => exact Nat.succ_pos _

/-! ## Open recursion -/

variable {negate : Constraint → Option Constraint} {go : Constraint → Attempt} {c : Constraint}

/-- The equations of `negation`, where `negate` answers the calls. -/
def negationBy (negate : Constraint → Option Constraint) : Constraint → Option Constraint
  | equality x relation rhs => some (equality x relation.negated rhs)
  | ordering x relation rhs => some (ordering x relation.negated rhs)
  | linear x offset relation z => some (linear x offset relation.negated z)
  | element index array rhs first => some (not (element index array rhs first))
  | reified body flag => (negate body).map fun negated => reified negated flag
  | and operands => (operands.mapM negate).map or
  | or operands => (operands.mapM negate).map and
  | xor operands => some (not (xor operands))
  | ifThen antecedent consequent => (negate consequent).map fun negated => and [antecedent, negated]
  | not operand => some operand

/-- The negation is built, and then propagated. -/
def propagateNegated (negate : Constraint → Option Constraint) (go : Constraint → Attempt)
    (c : Constraint) : Attempt := fun D =>
  (negate c).bind fun negated => go negated D

/-- Propagates the body or its negation once the flag is fixed, and fixes the flag once the body
    is decided. -/
def matchFlagBy (negate : Constraint → Option Constraint) (go : Constraint → Attempt)
    (body : Constraint) (flag : Variable) : Attempt :=
  .reading fun D =>
    match (D.get flag).fixedValue? with
    | some value => if value = 1 then go body else propagateNegated negate go body
    | none =>
        match entailment D.get body with
        | .satisfied => ofStep (narrow flag (.exactly 1))
        | .violated => ofStep (narrow flag (.exactly 0))
        | .unknown => ofStep done

/-- Propagates the last operand which can still hold. -/
def propagateLastBy (go : Constraint → Attempt) : List Constraint → Attempt
  | [] => ofStep (fail .violated)
  | [last] => go last
  | _ => ofStep done

/-- The equations of `propagate`, where `negate` and `go` answer the calls. -/
def propagateBy (negate : Constraint → Option Constraint) (go : Constraint → Attempt) :
    Constraint → Attempt
  | equality x relation rhs => ofStep (propagateEquality x relation rhs)
  | ordering x relation rhs => ofStep (propagateOrder (relation.normalForm x rhs))
  | linear x offset relation z => ofStep (propagateLinear x offset relation z)
  | element index array rhs first => ofStep (propagateElement index array rhs first)
  | reified body flag =>
      (ofStep (narrow flag (.atLeast 0))).andThen ((ofStep (narrow flag (.atMost 1))).andThen
        (matchFlagBy negate go body flag))
  | and operands => .inOrder (operands.map go)
  | or operands => .reading fun D =>
      if .satisfied ∈ entailments D.get operands then ofStep done
      else propagateLastBy go (undecided D.get operands)
  | xor operands => .reading fun D =>
      match (entailments D.get operands).count .satisfied with
      | 0 => propagateLastBy go (undecided D.get operands)
      | 1 => .inOrder ((undecided D.get operands).map (propagateNegated negate go))
      | _ => ofStep (fail .violated)
  | ifThen antecedent consequent => .reading fun D =>
      match entailment D.get antecedent with
      | .satisfied => go consequent
      | .violated => ofStep done
      | .unknown =>
          if entailment D.get consequent = .violated then propagateNegated negate go antecedent
          else ofStep done
  | not operand => .reading fun D =>
      if entailment D.get operand = .satisfied then ofStep (fail .violated) else ofStep done

theorem mapM_eq_some {cs : List Constraint} (h : ∀ d ∈ cs, negate d = some d.negation) :
    cs.mapM negate = some (negations cs) := by
  induction cs with
  | nil => rfl
  | cons d cs ih =>
      obtain ⟨hd, hcs⟩ := List.forall_mem_cons.mp h
      rw [List.mapM_cons, hd, ih hcs, negations]
      rfl

/-- An operand is lighter than the connective. -/
theorem weight_lt_connective {operands : List Constraint} {d : Constraint} (hd : d ∈ operands) :
    d.weight < weights operands + 1 :=
  Nat.lt_succ_of_le (weight_le_weights hd)

/-- **WHAT NEGATION CALLS.** If the negations of the lighter trees are answered then a tree is
    negated, whatever becomes of other calls. -/
theorem negationBy_eq
    (hnegate : ∀ d : Constraint, d.weight < c.weight → negate d = some d.negation) :
    negationBy negate c = some c.negation := by
  cases c with
  | equality | ordering | linear | element | xor | not => rfl
  | reified body flag =>
      rw [negationBy, hnegate body (by rw [weight]; omega), negation]
      rfl
  | and operands =>
      rw [negationBy, mapM_eq_some fun d hd => hnegate d (weight_lt_connective hd), negation]
      rfl
  | or operands =>
      rw [negationBy, mapM_eq_some fun d hd => hnegate d (weight_lt_connective hd), negation]
      rfl
  | ifThen antecedent consequent =>
      rw [negationBy, hnegate consequent (by rw [weight]; omega), negation]
      rfl

/-- A negation is answered if building it and propagating it are. -/
theorem propagateNegated_eq (hnegate : negate c = some c.negation)
    (hgo : go c.negation = ofStep c.negation.propagate) :
    propagateNegated negate go c = ofStep c.negation.propagate := by
  funext D
  rw [propagateNegated, hnegate, Option.bind_some, hgo]

theorem matchFlagBy_eq {body : Constraint} (hgo : go body = ofStep body.propagate)
    (hnegated : propagateNegated negate go body = ofStep body.negation.propagate)
    (flag : Variable) : matchFlagBy negate go body flag = ofStep (matchFlag body flag) := by
  refine reading_eq fun D => ?_
  cases (D.get flag).fixedValue? with
  | none => cases entailment D.get body <;> rfl
  | some value =>
      by_cases hvalue : value = 1
      · simp only [if_pos hvalue, hgo]
      · simp only [if_neg hvalue, hnegated]

theorem propagateLastBy_eq {cs : List Constraint} (hgo : ∀ d ∈ cs, go d = ofStep d.propagate) :
    propagateLastBy go cs = ofStep (propagateLast cs) := by
  match cs with
  | [] => rfl
  | [last] => exact hgo last (List.mem_singleton_self last)
  | _ :: _ :: _ => rfl

/-- **WHAT PROPAGATION CALLS.** If negating and propagating are answered for the lighter trees,
    then a tree is propagated, whatever becomes of other calls. -/
theorem propagateBy_eq
    (hnegate : ∀ d : Constraint, d.weight < c.weight → negate d = some d.negation)
    (hgo : ∀ d : Constraint, d.weight < c.weight → go d = ofStep d.propagate) :
    propagateBy negate go c = ofStep c.propagate := by
  -- the negation weighs as much as the tree, so it may be propagated as well
  have hnegated : ∀ d : Constraint, d.weight < c.weight →
      propagateNegated negate go d = ofStep d.negation.propagate := fun d hd =>
    propagateNegated_eq (hnegate d hd) (hgo d.negation (by rwa [weight_negation]))
  cases c with
  | equality | ordering | linear | element => rw [propagateBy, propagate]
  | reified body flag =>
      have hbody : body.weight < (reified body flag).weight := by
        rw [weight]
        omega
      rw [propagateBy, propagate_reified, matchFlagBy_eq (hgo body hbody) (hnegated body hbody),
        ofStep_andThen, ofStep_andThen]
  | and operands =>
      have hall : operands.map go = operands.map fun d => ofStep d.propagate :=
        List.map_congr_left fun d hd => hgo d (weight_lt_connective hd)
      rw [propagateBy, propagate_and, hall, inOrder_map]
  | or operands =>
      rw [propagateBy, propagate_or]
      refine reading_eq fun D => ?_
      rw [propagateLastBy_eq fun d hd => hgo d (weight_lt_connective (mem_of_mem_undecided hd))]
      split <;> rfl
  | xor operands =>
      rw [propagateBy, propagate_xor]
      refine reading_eq fun D => ?_
      have hothers : (undecided D.get operands).map (propagateNegated negate go) =
          (undecided D.get operands).map fun d => ofStep d.negation.propagate :=
        List.map_congr_left fun d hd =>
          hnegated d (weight_lt_connective (mem_of_mem_undecided hd))
      rw [propagateLastBy_eq fun d hd => hgo d (weight_lt_connective (mem_of_mem_undecided hd)),
        hothers, inOrder_map fun d : Constraint => d.negation.propagate]
      generalize (entailments D.get operands).count .satisfied = holding
      rcases holding with _ | _ | _ <;> rfl
  | ifThen antecedent consequent =>
      have hantecedent : antecedent.weight < (ifThen antecedent consequent).weight := by
        rw [weight]
        omega
      have hconsequent : consequent.weight < (ifThen antecedent consequent).weight := by
        rw [weight]
        omega
      rw [propagateBy, propagate_ifThen, hnegated antecedent hantecedent,
        hgo consequent hconsequent]
      refine reading_eq fun D => ?_
      cases entailment D.get antecedent with
      | satisfied => rfl
      | violated => rfl
      | unknown =>
          dsimp only
          split <;> rfl
  | not operand =>
      rw [propagateBy, propagate_not]
      refine reading_eq fun D => ?_
      split <;> rfl

/-! ## Nested calls -/

/-- Negation with so many nested calls; with none left there is no answer. -/
def negationWithin : Nat → Constraint → Option Constraint
  | 0, _ => none
  | n + 1, c => negationBy (negationWithin n) c

/-- Propagation with so many nested calls, negations among them. -/
def propagateWithin : Nat → Constraint → Attempt
  | 0, _ => fun _ => none
  | n + 1, c => propagateBy (negationWithin n) (propagateWithin n) c

/-- As many nested calls as the weight are enough to negate a tree. -/
theorem negationWithin_eq {n : Nat} (h : c.weight ≤ n) : negationWithin n c = some c.negation := by
  induction n generalizing c with
  | zero => exact absurd c.weight_pos (Nat.not_lt.mpr h)
  | succ n ih => exact negationBy_eq fun d hd => ih (Nat.le_of_lt_succ (Nat.lt_of_lt_of_le hd h))

/-- **AS MANY NESTED CALLS** as the weight says are enough. -/
theorem propagateWithin_eq {n : Nat} (h : c.weight ≤ n) :
    propagateWithin n c = ofStep c.propagate := by
  induction n generalizing c with
  | zero => exact absurd c.weight_pos (Nat.not_lt.mpr h)
  | succ n ih =>
      have hle : ∀ d : Constraint, d.weight < c.weight → d.weight ≤ n := fun d hd =>
        Nat.le_of_lt_succ (Nat.lt_of_lt_of_le hd h)
      exact propagateBy_eq (fun d hd => negationWithin_eq (hle d hd)) fun d hd => ih (hle d hd)

/-- What is called: negation or propagation, on a tree. -/
inductive Activation
  | negation (c : Constraint)
  | propagation (c : Constraint)

namespace Activation

variable {a b : Activation}

def weight : Activation → Nat
  | negation c => c.weight
  | propagation c => c.weight

/-- The equations lead to an answer, for any domains. -/
def Ends (negate : Constraint → Option Constraint) (go : Constraint → Attempt) : Activation → Prop
  | negation c => (negationBy negate c).isSome = true
  | propagation c => ∀ D, (propagateBy negate go c D).isSome = true

/-- All calls are answered rightly, apart from one perhaps. -/
structure AnswersAllBut (b : Activation) (negate : Constraint → Option Constraint)
    (go : Constraint → Attempt) : Prop where
  negated : ∀ c, negation c ≠ b → negate c = some c.negation
  propagated : ∀ c, propagation c ≠ b → go c = ofStep c.propagate

/-- **ONE ACTIVATION CALLS ANOTHER** if it may need that answer, and no other answer will do. -/
def Calls (a b : Activation) : Prop :=
  ∃ negate go, AnswersAllBut b negate go ∧ ¬ a.Ends negate go

/-- **EVERY CALL** is on a lighter tree. -/
theorem Calls.lighter (h : Calls a b) : b.weight < a.weight := by
  obtain ⟨negate, go, hall, hends⟩ := h
  by_contra hnot
  -- so the call that is not answered is on none of the lighter trees
  have hnegate : ∀ d : Constraint, d.weight < a.weight → negate d = some d.negation := fun d hd =>
    hall.negated d fun heq => hnot (heq ▸ hd)
  have hgo : ∀ d : Constraint, d.weight < a.weight → go d = ofStep d.propagate := fun d hd =>
    hall.propagated d fun heq => hnot (heq ▸ hd)
  refine hends ?_
  cases a with
  | negation c =>
      rw [Ends, negationBy_eq hnegate]
      rfl
  | propagation c =>
      rw [Ends, propagateBy_eq hnegate hgo]
      exact fun _ => rfl

/-- **NO ENDLESS CALLS**: no tree calls for another without end. -/
theorem wellFounded_calls : WellFounded fun b a => Calls a b :=
  Subrelation.wf Calls.lighter (measure weight).wf

/-- The right answers, without the one to propagating a tree. -/
def answersBut (d : Constraint) (e : Constraint) : Attempt :=
  if e = d then fun _ => none else ofStep e.propagate

/-- Propagation calls what it does not come to an end without. -/
theorem calls_of_none {c d : Constraint} {D : Domains}
    (h : propagateBy (fun e => some e.negation) (answersBut d) c D = none) :
    Calls (propagation c) (propagation d) := by
  have hall : AnswersAllBut (propagation d) (fun e => some e.negation) (answersBut d) :=
    ⟨fun _ _ => rfl, fun e he => if_neg fun heq => he (congrArg propagation heq)⟩
  refine ⟨_, _, hall, fun hends => ?_⟩
  have hsome := hends D
  rw [h] at hsome
  cases hsome

end Activation

/-! ## Negations that grow -/

/-- Three times "exactly one of `x = 1`". -/
def thrice : Constraint :=
  let once := xor [equality ⟨0, 0⟩ .equal (.constant 1)]
  and [once, once, once]

/-- Trees that have this as a part. -/
def growing : List Constraint :=
  [reified thrice ⟨0, 1⟩, xor [and [], thrice], ifThen thrice (or [])]

/-- The number is not decided, and the flag is 0. -/
def openNumber : Domains :=
  (((Domains.empty 0).push (.between 0 1)).2.push (.between 0 0)).2

/-- They call propagation on its negation, which is no part of them and has more nodes. -/
theorem grown_by_negation : ∀ c ∈ growing,
    Activation.Calls (.propagation c) (.propagation thrice.negation) ∧
      thrice.negation ∉ c.subtrees ∧ c.subtrees.length < thrice.negation.subtrees.length := by
  have hnone : ∀ c ∈ growing,
      propagateBy (fun e => some e.negation) (Activation.answersBut thrice.negation) c openNumber =
        none := by
    decide +kernel
  have hgrown : ∀ c ∈ growing,
      thrice.negation ∉ c.subtrees ∧ c.subtrees.length < thrice.negation.subtrees.length := by
    decide +kernel
  exact fun c hc => ⟨Activation.calls_of_none (hnone c hc), hgrown c hc⟩

/-! ## Propagation ends -/

/-- **PROPAGATING A TREE ALWAYS ENDS.** The weight of a tree is the number of its nodes that are
    no negations, and negation keeps it.  `negation` and `propagate` obey their equations;
    whatever these call for a tree is called for a lighter one, also where a negation has been
    built that is no part of the tree and has more nodes, so no calls go on for ever.  If as many
    nested calls are allowed as the weight says, or more, the equations lead to the negation and
    to the propagation of the tree in any domains. -/
theorem propagation_is_well_founded :
    (∀ c : Constraint, c.weight = c.subtrees.countP fun d => !d.isNot) ∧
    (∀ c : Constraint, c.negation.weight = c.weight) ∧
    (∀ c, negationBy (fun d => some d.negation) c = some c.negation ∧
      ∀ D, propagateBy (fun d => some d.negation) (fun d => ofStep d.propagate) c D =
        some (c.propagate D)) ∧
    (∀ a b : Activation, a.Calls b → b.weight < a.weight) ∧
    (WellFounded fun b a : Activation => a.Calls b) ∧
    (∀ (c : Constraint) (n : Nat), c.weight ≤ n →
      negationWithin n c = some c.negation ∧
        ∀ D, propagateWithin n c D = some (c.propagate D)) ∧
    ∀ c ∈ growing, Activation.Calls (.propagation c) (.propagation thrice.negation) ∧
      thrice.negation ∉ c.subtrees ∧ c.subtrees.length < thrice.negation.subtrees.length := by
  refine ⟨weight_eq_countP, weight_negation, fun c => ⟨negationBy_eq fun _ _ => rfl, fun D => ?_⟩,
    fun a b h => h.lighter, Activation.wellFounded_calls,
    fun c n h => ⟨negationWithin_eq h, fun D => ?_⟩, grown_by_negation⟩
  · rw [propagateBy_eq (fun _ _ => rfl) fun _ _ => rfl]
    rfl
  · rw [propagateWithin_eq h]
    rfl

end Constraint

end ConstraintSolver
