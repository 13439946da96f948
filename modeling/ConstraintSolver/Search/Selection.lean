import ConstraintSolver.Random
import ConstraintSolver.Search.TieBreaker
import ConstraintSolver.Store.Propagation

/-! # Selection — which variable a search branches on, and on which value

    A policy chooses the next variable of the scope, or none when all are
    fixed, and one of the values which have not been tried.  The built-in
    policies are put together from a variable choice and a value choice; every
    other way to choose is a policy of its own. -/

namespace ConstraintSolver

/-- How a search chooses; `ρ` is the state that random choices use up. -/
structure Policy (ρ : Type) where
  chooseVariable : Store → List Variable → Except Misuse (Option Variable)
  chooseValue : Store → Variable → Domain → ρ → Except Misuse (Int × ρ)

/-- The order in which variables are chosen. -/
inductive VariableChoice where
  /-- The variable with the most values. -/
  | largestDomain
  /-- The variable with the fewest values. -/
  | smallestDomain
  /-- The variable in the most constraints, and of those the one with the
      fewest values. -/
  | mostConstrained
  /-- The first variable. -/
  | inputOrder
  deriving DecidableEq, Repr

/-- The order in which values are tried. -/
inductive ValueChoice where
  /-- The smallest value first. -/
  | inDomainMin
  /-- The largest value first. -/
  | inDomainMax
  /-- A random value. -/
  | inDomainRandom
  deriving DecidableEq, Repr

/-- How much a variable is constrained: by more constraints, or by as many with
    fewer values left. -/
structure Demand where
  constraints : Nat
  size : Nat
  deriving DecidableEq, Repr

namespace Demand

/-- The first demand is the smaller one. -/
def Less (a b : Demand) : Prop :=
  a.constraints < b.constraints ∨ (a.constraints = b.constraints ∧ b.size < a.size)

instance : LT Demand := ⟨Less⟩

instance : DecidableLT Demand := fun a b =>
  inferInstanceAs (Decidable
    (a.constraints < b.constraints ∨ (a.constraints = b.constraints ∧ b.size < a.size)))

end Demand

namespace VariableChoice

/-- The unfixed variables of a list.  All of them have to be variables of the
    store. -/
def unfixed (s : Store) (vs : List Variable) : Except Misuse (List Variable) :=
  match vs.find? fun v => !s.owns v with
  | some v => .error (.foreignVariable v s.number)
  | none => .ok (vs.filter fun v => !(s.domain v).isFixed)

/-- The first unfixed variable; the list is not looked at beyond it. -/
def firstUnfixed (s : Store) : List Variable → Except Misuse (Option Variable)
  | [] => .ok none
  | v :: vs =>
      if !s.owns v then .error (.foreignVariable v s.number)
      else if (s.domain v).isFixed then firstUnfixed s vs
      else .ok (some v)

/-- The variable to branch on, if one is unfixed. -/
def choose (choice : VariableChoice) (s : Store) (scope : List Variable) :
    Except Misuse (Option Variable) :=
  match choice with
  | largestDomain =>
      (unfixed s scope).map fun vs => TieBreaker.best? .maximum vs fun v => (s.domain v).size
  | smallestDomain =>
      (unfixed s scope).map fun vs => TieBreaker.best? .minimum vs fun v => (s.domain v).size
  | mostConstrained =>
      (unfixed s scope).map fun vs =>
        TieBreaker.best? .maximum vs fun v => Demand.mk (s.watcherCount v) (s.domain v).size
  | inputOrder => firstUnfixed s scope

end VariableChoice

namespace ValueChoice

variable {ρ : Type} [RandomSource ρ]

/-- The value to try, and what is left of the random state. -/
def choose (choice : ValueChoice) (candidates : Domain) (random : ρ) :
    Except Misuse (Int × ρ) :=
  match choice with
  | inDomainMin => .ok (candidates.lowerBound, random)
  | inDomainMax => .ok (candidates.upperBound, random)
  | inDomainRandom =>
      match RandomSource.draw random candidates.size with
      | .error e => .error e
      | .ok (position, random) =>
          match candidates.nth? position with
          | some value => .ok (value, random)
          | none => .error .noCandidates

end ValueChoice

/-- The policy made of a variable choice and a value choice. -/
def Policy.of {ρ : Type} [RandomSource ρ] (onVariable : VariableChoice) (onValue : ValueChoice) :
    Policy ρ where
  chooseVariable := onVariable.choose
  chooseValue _ _ candidates random := onValue.choose candidates random

end ConstraintSolver
