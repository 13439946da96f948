import ConstraintSolver.Variable

/-! # Solutions — what a search reports

    A solution gives a value to every variable of the scope, in the order of
    the scope. -/

namespace ConstraintSolver

/-- The value of one variable. -/
structure Assigned where
  var : Variable
  name : String
  value : Int
  deriving DecidableEq, Repr

/-- The values of the variables of a scope. -/
structure Solution where
  entries : List Assigned
  deriving DecidableEq, Repr

namespace Solution

/-- The value of a variable, if it is in the scope. -/
def valueOf? (s : Solution) (v : Variable) : Option Int :=
  (s.entries.find? fun e => e.var == v).map Assigned.value

/-- The value of the variable with this name, if it is in the scope. -/
def valueNamed? (s : Solution) (name : String) : Option Int :=
  (s.entries.find? fun e => e.name == name).map Assigned.value

/-- The values in the order of the scope. -/
def values (s : Solution) : List Int := s.entries.map Assigned.value

/-- The number of variables of the scope. -/
def size (s : Solution) : Nat := s.entries.length

/-- How a solution is written. -/
def text (s : Solution) : String :=
  ", ".intercalate (s.entries.map fun e => e.name ++ "=" ++ toString e.value)

end Solution

end ConstraintSolver
