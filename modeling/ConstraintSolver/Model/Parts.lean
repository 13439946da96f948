import ConstraintSolver.Store.Propagation

/-! # Models of parts

    A model of parts declares the parts `part-1`, `part-2`, … as variables
    fixed to their number, the facts which relate the parts to their
    attributes, and a query over the decision variables `x0`, `x1`, ….
    Building a model is a sequence of operations on a store which ends with
    the first that fails; what was built until then stays. -/

namespace ConstraintSolver

/-- A sequence of operations on a store. -/
abbrev Build := ExceptT (Failure ModelError) (StateM Store)

namespace Build

/-- Declares a named variable with the values from `lower` to `upper`. -/
def integer (lower upper : Int) (name : String) : Build Variable :=
  fun s => s.newInteger lower upper (some name)

/-- Declares a named variable with the given values. -/
def sparse (values : List Int) (name : String) : Build Variable :=
  fun s => s.newSparse values (some name)

/-- Declares an anonymous variable with the values 0 and 1. -/
def boolean : Build Variable := fun s => s.newBoolean none

/-- Adds a value to a variable. -/
def extend (v : Variable) (value : Int) : Build Unit := fun s => s.extendDomain v value value

/-- Imposes a constraint. -/
def impose (c : Constraint) : Build Unit := fun s =>
  match s.impose c with
  | (.ok _, t) => (.ok (), t)
  | (.error e, t) => (.error e, t)

/-- Tells that the model is complete. -/
def finished : Build Unit := fun s => (.ok (), s.note (.modelBuilt s.text))

end Build

namespace Parts

/-- The numbers from 1 to a count. -/
def numbers (count : Int) : List Int := (List.range count.toNat).map fun i => Int.ofNat i + 1

/-- The name of a part. -/
def partName (number : Int) : String := "part-" ++ toString number

/-- Declares the decision variables, each of which holds the number of a
    part. -/
def declareVariables (count parts : Int) : Build (List Variable) :=
  (List.range count.toNat).mapM fun i => Build.integer 1 parts ("x" ++ toString i)

/-- Declares the parts. -/
def declareParts (parts : Int) : Build (List Variable) :=
  (numbers parts).mapM fun number => Build.integer number number (partName number)

end Parts

/-- How large a model is: the number of its decision variables and of its
    parts. -/
structure ModelSize where
  variableCount : Int
  partCount : Int
  deriving DecidableEq, Repr

end ConstraintSolver
