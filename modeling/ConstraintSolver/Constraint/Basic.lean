import ConstraintSolver.Variable

/-! # Constraints — relations between variables

    A constraint is a tree: primitive relations at the leaves, and
    reification and the logical connectives above them.  Its negation is
    again a constraint, built by pushing the negation to the leaves where a
    dual exists.  The `weight` of a tree, which counts nodes but no
    negations, does not change under negation (`weight_negation`); it is the
    measure by which reasoning alternates between a tree and its negation
    without going in circles. -/

namespace ConstraintSolver

/-- The right-hand side of a primitive relation. -/
inductive Term where
  | variable (v : Variable)
  | constant (value : Int)
  deriving DecidableEq, Repr

/-- A term is written as its variable or its value. -/
def Term.text : Term → String
  | .variable v => v.text
  | .constant value => toString value

/-- Equality and its negation. -/
inductive EqualityRelation where
  | equal
  | notEqual
  deriving DecidableEq, Repr

namespace EqualityRelation

/-- The relation which holds exactly when this one does not. -/
def negated : EqualityRelation → EqualityRelation
  | equal => notEqual
  | notEqual => equal

/-- The symbol of the relation. -/
def text : EqualityRelation → String
  | equal => "="
  | notEqual => "!="

end EqualityRelation

/-- The four orders. -/
inductive OrderRelation where
  | less
  | lessOrEqual
  | greater
  | greaterOrEqual
  deriving DecidableEq, Repr

namespace OrderRelation

/-- The relation which holds exactly when this one does not. -/
def negated : OrderRelation → OrderRelation
  | less => greaterOrEqual
  | lessOrEqual => greater
  | greater => lessOrEqual
  | greaterOrEqual => less

/-- The symbol of the relation. -/
def text : OrderRelation → String
  | less => "<"
  | lessOrEqual => "<="
  | greater => ">"
  | greaterOrEqual => ">="

end OrderRelation

/-- A relation over variables. -/
inductive Constraint where
  /-- `x` is equal, or not equal, to the right-hand side. -/
  | equality (x : Variable) (relation : EqualityRelation) (rhs : Term)
  /-- `x` is ordered with respect to the right-hand side. -/
  | ordering (x : Variable) (relation : OrderRelation) (rhs : Term)
  /-- `x + offset` is equal, or not equal, to `z`. -/
  | linear (x : Variable) (offset : Int) (relation : EqualityRelation) (z : Variable)
  /-- The element of `array` at `index` exists and is equal to `rhs`; the
      first element is at position `first`. -/
  | element (index : Variable) (array : List Variable) (rhs : Variable) (first : Int)
  /-- `flag` is 1 if `body` holds, and 0 if it does not. -/
  | reified (body : Constraint) (flag : Variable)
  /-- Every operand holds. -/
  | and (operands : List Constraint)
  /-- At least one operand holds. -/
  | or (operands : List Constraint)
  /-- Exactly one operand holds. -/
  | xor (operands : List Constraint)
  /-- If the antecedent holds, so does the consequent. -/
  | ifThen (antecedent consequent : Constraint)
  /-- The operand does not hold. -/
  | not (operand : Constraint)

/-- The order in which pending constraints are propagated: the cheap ones come
    first. -/
inductive Priority where
  | high
  | medium
  | low
  deriving DecidableEq, Repr

/-- The place of a constraint in the order in which a store imposed them. -/
structure ConstraintId where
  index : Nat
  deriving DecidableEq, Repr

namespace ConstraintId

/-- The number of ids: an index is kept modulo 32 bits. -/
def limit : Nat := 4294967296

/-- The id with the low 32 bits of an index. -/
def ofIndex (index : Nat) : ConstraintId := ⟨index % limit⟩

/-- How an id is written. -/
def text (id : ConstraintId) : String := "constraint #" ++ toString id.index

end ConstraintId

namespace Constraint

/-! ## Equality of trees -/

mutual

/-- Whether two constraints are the same tree. -/
def same : Constraint → Constraint → Bool
  | equality x r t, equality x' r' t' => x == x' && r == r' && t == t'
  | ordering x r t, ordering x' r' t' => x == x' && r == r' && t == t'
  | linear x k r z, linear x' k' r' z' => x == x' && k == k' && r == r' && z == z'
  | element i a r f, element i' a' r' f' => i == i' && a == a' && r == r' && f == f'
  | reified c b, reified c' b' => same c c' && b == b'
  | and cs, and cs' => sameAll cs cs'
  | or cs, or cs' => sameAll cs cs'
  | xor cs, xor cs' => sameAll cs cs'
  | ifThen a c, ifThen a' c' => same a a' && same c c'
  | not c, not c' => same c c'
  | _, _ => false

/-- Whether two lists hold the same trees. -/
def sameAll : List Constraint → List Constraint → Bool
  | [], [] => true
  | c :: cs, c' :: cs' => same c c' && sameAll cs cs'
  | _, _ => false

end

mutual

theorem same_iff : (c d : Constraint) → (same c d = true ↔ c = d)
  | .equality .., d => by cases d <;> simp [same, and_assoc]
  | .ordering .., d => by cases d <;> simp [same, and_assoc]
  | .linear .., d => by cases d <;> simp [same, and_assoc]
  | .element .., d => by cases d <;> simp [same, and_assoc]
  | .reified c b, d => by cases d <;> simp [same, same_iff c]
  | .and cs, d => by cases d <;> simp [same, sameAll_iff cs]
  | .or cs, d => by cases d <;> simp [same, sameAll_iff cs]
  | .xor cs, d => by cases d <;> simp [same, sameAll_iff cs]
  | .ifThen a c, d => by cases d <;> simp [same, same_iff a, same_iff c]
  | .not c, d => by cases d <;> simp [same, same_iff c]

theorem sameAll_iff : (cs ds : List Constraint) → (sameAll cs ds = true ↔ cs = ds)
  | [], ds => by cases ds <;> simp [sameAll]
  | c :: cs, ds => by cases ds <;> simp [sameAll, same_iff c, sameAll_iff cs]

end

instance : DecidableEq Constraint := fun c d => decidable_of_iff _ (same_iff c d)

/-! ## Negation -/

mutual

/-- The constraint which holds exactly when this one does not. -/
def negation : Constraint → Constraint
  | equality x relation rhs => equality x relation.negated rhs
  | ordering x relation rhs => ordering x relation.negated rhs
  | linear x offset relation z => linear x offset relation.negated z
  | element index array rhs first => not (element index array rhs first)
  | reified body flag => reified (negation body) flag
  | and operands => or (negations operands)
  | or operands => and (negations operands)
  | xor operands => not (xor operands)
  | ifThen antecedent consequent => and [antecedent, negation consequent]
  | not operand => operand

/-- The negations of several constraints. -/
def negations : List Constraint → List Constraint
  | [] => []
  | c :: cs => negation c :: negations cs

end

theorem negations_eq_map (cs : List Constraint) : negations cs = cs.map negation := by
  induction cs with
  | nil => rfl
  | cons c cs ih => rw [negations, ih, List.map_cons]

/-! ## Weight -/

mutual

/-- The number of nodes of the tree, negations not counted. -/
def weight : Constraint → Nat
  | equality .. => 1
  | ordering .. => 1
  | linear .. => 1
  | element .. => 1
  | reified body _ => weight body + 1
  | and operands => weights operands + 1
  | or operands => weights operands + 1
  | xor operands => weights operands + 1
  | ifThen antecedent consequent => weight antecedent + weight consequent + 1
  | not operand => weight operand

/-- The weight of several constraints together. -/
def weights : List Constraint → Nat
  | [] => 0
  | c :: cs => weight c + weights cs

end

mutual

/-- **NEGATION KEEPS THE WEIGHT.** -/
theorem weight_negation : (c : Constraint) → weight (negation c) = weight c
  | .equality .. => rfl
  | .ordering .. => rfl
  | .linear .. => rfl
  | .element .. => rfl
  | .reified body _ => by rw [negation, weight, weight, weight_negation body]
  | .and operands => by rw [negation, weight, weight, weights_negations operands]
  | .or operands => by rw [negation, weight, weight, weights_negations operands]
  | .xor .. => rfl
  | .ifThen antecedent consequent => by
      rw [negation, weight, weight, weights, weights, weights, weight_negation consequent]
      omega
  | .not operand => by rw [negation, weight]

theorem weights_negations : (cs : List Constraint) → weights (negations cs) = weights cs
  | [] => rfl
  | c :: cs => by rw [negations, weights, weights, weight_negation c, weights_negations cs]

end

/-- An operand weighs no more than all of them together. -/
theorem weight_le_weights {c : Constraint} {cs : List Constraint} (h : c ∈ cs) :
    weight c ≤ weights cs := by
  induction cs with
  | nil => simp at h
  | cons d cs ih =>
      rw [weights]
      rcases List.mem_cons.mp h with rfl | h
      · omega
      · have := ih h
        omega

/-! ## Scope -/

mutual

/-- The variables at the leaves and flags of the tree, from left to right. -/
def occurrences : Constraint → List Variable
  | equality x _ (.variable y) => [x, y]
  | equality x _ (.constant _) => [x]
  | ordering x _ (.variable y) => [x, y]
  | ordering x _ (.constant _) => [x]
  | linear x _ _ z => [x, z]
  | element index array rhs _ => index :: (array ++ [rhs])
  | reified body flag => occurrences body ++ [flag]
  | and operands => occurrencesAll operands
  | or operands => occurrencesAll operands
  | xor operands => occurrencesAll operands
  | ifThen antecedent consequent => occurrences antecedent ++ occurrences consequent
  | not operand => occurrences operand

/-- The occurrences in several constraints. -/
def occurrencesAll : List Constraint → List Variable
  | [] => []
  | c :: cs => occurrences c ++ occurrencesAll cs

end

/-- The list with only the first occurrence of every variable. -/
def firsts : List Variable → List Variable
  | [] => []
  | v :: vs => v :: (firsts vs).filter (· != v)

/-- The variables the constraint refers to, in order of first occurrence. -/
def scope (c : Constraint) : List Variable := firsts (occurrences c)

/-! ## Scheduling -/

/-- How urgently the constraint is propagated. -/
def priority : Constraint → Priority
  | equality .. => .high
  | ordering .. => .high
  | linear .. => .high
  | element .. => .medium
  | reified .. => .medium
  | and _ => .low
  | or _ => .low
  | xor _ => .low
  | ifThen .. => .low
  | not _ => .low

/-! ## Text -/

mutual

/-- How a constraint is written. -/
def text : Constraint → String
  | equality x relation rhs => x.text ++ " " ++ relation.text ++ " " ++ rhs.text
  | ordering x relation rhs => x.text ++ " " ++ relation.text ++ " " ++ rhs.text
  | linear x offset relation z =>
      x.text ++ " + " ++ toString offset ++ " " ++ relation.text ++ " " ++ z.text
  | element index array rhs first =>
      "element(" ++ index.text ++ ", [" ++ ", ".intercalate (array.map Variable.text) ++ "], "
        ++ rhs.text ++ ", first = " ++ toString first ++ ")"
  | reified body flag => flag.text ++ " <-> (" ++ text body ++ ")"
  | and operands => "and(" ++ ", ".intercalate (texts operands) ++ ")"
  | or operands => "or(" ++ ", ".intercalate (texts operands) ++ ")"
  | xor operands => "xor(" ++ ", ".intercalate (texts operands) ++ ")"
  | ifThen antecedent consequent => "(" ++ text antecedent ++ ") -> (" ++ text consequent ++ ")"
  | not operand => "not(" ++ text operand ++ ")"

/-- The texts of several constraints. -/
def texts : List Constraint → List String
  | [] => []
  | c :: cs => text c :: texts cs

end

end Constraint

end ConstraintSolver
