import ConstraintSolver.Constraint.Basic
import ConstraintSolver.Domain.Basic

/-! # Entailment — what the domains already decide about a constraint

    Given a domain for every variable, a constraint is known to hold, known
    to be violated, or undecided.  The verdict on a tree is put together from
    the verdicts on its operands. -/

namespace ConstraintSolver

/-- What is known about a constraint. -/
inductive Entailment where
  | unknown
  | satisfied
  | violated
  deriving DecidableEq, Repr

namespace Entailment

/-- The verdict on the negation. -/
def negated : Entailment → Entailment
  | unknown => unknown
  | satisfied => violated
  | violated => satisfied

/-- A decided verdict. -/
def ofBool (holds : Bool) : Entailment := if holds then satisfied else violated

/-- The name of a verdict. -/
def name : Entailment → String
  | unknown => "Unknown"
  | satisfied => "Satisfied"
  | violated => "Violated"

/-- The verdict on "every one holds". -/
def all (verdicts : List Entailment) : Entailment :=
  if violated ∈ verdicts then violated
  else if unknown ∈ verdicts then unknown
  else satisfied

/-- The verdict on "at least one holds". -/
def any (verdicts : List Entailment) : Entailment :=
  if satisfied ∈ verdicts then satisfied
  else if unknown ∈ verdicts then unknown
  else violated

/-- The verdict on "exactly one holds". -/
def exactlyOne (verdicts : List Entailment) : Entailment :=
  match verdicts.count satisfied, verdicts.count unknown with
  | 0, 0 => violated
  | 1, 0 => satisfied
  | 0, _ => unknown
  | 1, _ => unknown
  | _, _ => violated

/-- The verdict on "the first implies the second". -/
def implies : Entailment → Entailment → Entailment
  | violated, _ => satisfied
  | _, satisfied => satisfied
  | satisfied, violated => violated
  | _, _ => unknown

/-- The verdict on a relation or its negation, given that on equality. -/
def under (relation : EqualityRelation) (equal : Entailment) : Entailment :=
  match relation with
  | .equal => equal
  | .notEqual => equal.negated

end Entailment

namespace Term

/-- The smallest value of a term. -/
def lowerBound (dom : Variable → Domain) : Term → Int
  | .variable v => (dom v).lowerBound
  | .constant value => value

/-- The largest value of a term. -/
def upperBound (dom : Variable → Domain) : Term → Int
  | .variable v => (dom v).upperBound
  | .constant value => value

end Term

/-- Every order relation in the form `smaller + gap ≤ larger`. -/
structure LessOrEqual where
  smaller : Term
  larger : Term
  gap : Int

/-- The order relation `x relation rhs` in its normal form. -/
def OrderRelation.normalForm (relation : OrderRelation) (x : Variable) (rhs : Term) :
    LessOrEqual :=
  match relation with
  | .less => ⟨.variable x, rhs, 1⟩
  | .lessOrEqual => ⟨.variable x, rhs, 0⟩
  | .greater => ⟨rhs, .variable x, 1⟩
  | .greaterOrEqual => ⟨rhs, .variable x, 0⟩

namespace Constraint

/-- What is known about `x = rhs`. -/
def equalityEntailment (dom : Variable → Domain) (x : Variable) (rhs : Term) : Entailment :=
  match rhs with
  | .constant value =>
      if !(dom x).contains value then .violated
      else if (dom x).isFixed then .satisfied
      else .unknown
  | .variable y =>
      if y = x then .satisfied
      else if !(dom x).overlaps (dom y) then .violated
      else if (dom x).isFixed && (dom y).isFixed then .satisfied
      else .unknown

/-- What is known about `smaller + gap ≤ larger`. -/
def orderEntailment (dom : Variable → Domain) (order : LessOrEqual) : Entailment :=
  if order.smaller = order.larger then .ofBool (order.gap == 0)
  else if order.smaller.upperBound dom + order.gap ≤ order.larger.lowerBound dom then .satisfied
  else if order.smaller.lowerBound dom + order.gap > order.larger.upperBound dom then .violated
  else .unknown

/-- What is known about `x + offset = z`. -/
def linearEntailment (dom : Variable → Domain) (x : Variable) (offset : Int) (z : Variable) :
    Entailment :=
  if x = z then .ofBool (offset == 0)
  else
    match (dom x).fixedValue?, (dom z).fixedValue? with
    | some v, some w => .ofBool (v + offset == w)
    | _, _ => if !((dom x).shift offset).overlaps (dom z) then .violated else .unknown

/-- The element of an array at an index, the first element being at `first`. -/
def elementAt? (array : List Variable) (first index : Int) : Option Variable :=
  if first ≤ index then array[(index - first).toNat]? else none

/-- The indices, counted from the given one, at which an array has an element
    that can still take a value of `target`. -/
def supportedIndices (dom : Variable → Domain) (target : Domain) :
    List Variable → Int → List Int
  | [], _ => []
  | a :: rest, index =>
      if (dom a).overlaps target then index :: supportedIndices dom target rest (index + 1)
      else supportedIndices dom target rest (index + 1)

/-- What is known about an element constraint. -/
def elementEntailment (dom : Variable → Domain) (index : Variable) (array : List Variable)
    (rhs : Variable) (first : Int) : Entailment :=
  if !(supportedIndices dom (dom rhs) array first).any (dom index).contains then .violated
  else
    match (dom index).fixedValue?.bind (elementAt? array first) with
    | none => .unknown
    | some selected =>
        if (dom selected).isFixed && (dom rhs).isFixed
          && (dom selected).fixedValue? == (dom rhs).fixedValue? then .satisfied
        else .unknown

/-- What is known about a reification, given what is known about its body. -/
def reifiedEntailment (flag : Domain) (body : Entailment) : Entailment :=
  match flag.contains 0, flag.contains 1 with
  | false, false => .violated
  | true, true => .unknown
  | false, true => body
  | true, false => body.negated

mutual

/-- What the domains decide about a constraint. -/
def entailment (dom : Variable → Domain) : Constraint → Entailment
  | equality x relation rhs => .under relation (equalityEntailment dom x rhs)
  | ordering x relation rhs => orderEntailment dom (relation.normalForm x rhs)
  | linear x offset relation z => .under relation (linearEntailment dom x offset z)
  | element index array rhs first => elementEntailment dom index array rhs first
  | reified body flag => reifiedEntailment (dom flag) (entailment dom body)
  | and operands => .all (entailments dom operands)
  | or operands => .any (entailments dom operands)
  | xor operands => .exactlyOne (entailments dom operands)
  | ifThen antecedent consequent => .implies (entailment dom antecedent) (entailment dom consequent)
  | not operand => (entailment dom operand).negated

/-- What the domains decide about several constraints. -/
def entailments (dom : Variable → Domain) : List Constraint → List Entailment
  | [] => []
  | c :: cs => entailment dom c :: entailments dom cs

end

theorem entailments_eq_map (dom : Variable → Domain) (cs : List Constraint) :
    entailments dom cs = cs.map (entailment dom) := by
  induction cs with
  | nil => rfl
  | cons c cs ih => rw [entailments, ih, List.map_cons]

/-- The operands about which nothing is decided. -/
def undecided (dom : Variable → Domain) (cs : List Constraint) : List Constraint :=
  cs.filter fun c => entailment dom c == .unknown

theorem mem_of_mem_undecided {dom : Variable → Domain} {cs : List Constraint} {c : Constraint}
    (h : c ∈ undecided dom cs) : c ∈ cs :=
  (List.mem_filter.mp h).1

end Constraint

end ConstraintSolver
