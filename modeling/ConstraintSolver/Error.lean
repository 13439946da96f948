import ConstraintSolver.Constraint.Propagation

/-! # Errors — how an operation on a store can be refused

    An operation fails for one of two reasons.  The model or the update asks
    for something that cannot be had, which the caller is expected to handle;
    or a rule of use is broken, after which nothing is promised.

    The rules are those which every run checks.  A debugging run checks more,
    such as that nothing waits when a snapshot is taken; these checks change
    no answer of the other runs and are left out. -/

namespace ConstraintSolver

/-- Why a model cannot be built. -/
inductive ModelError where
  /-- The values of a variable are no domain. -/
  | domain (error : DomainError)
  /-- The name of a variable is not available. -/
  | naming (error : NameError)
  /-- The domain of a variable was to be extended although a constraint refers
      to it. -/
  | domainFrozen (name : String)
  /-- Propagation of a new constraint failed. -/
  | modelInconsistent (id : ConstraintId)
  /-- A constraint was imposed on a store which has failed already. -/
  | infeasibleState
  /-- No variable was declared with this name. -/
  | variableNotFound (name : String)
  /-- A variable or snapshot belongs to another store. -/
  | ownershipMismatch
  deriving DecidableEq, Repr

/-- What the user reads about a model which cannot be built. -/
def ModelError.message : ModelError → String
  | .domain error => error.message
  | .naming error => error.message
  | .domainFrozen name =>
      "the domain of '" ++ name ++ "' cannot be extended once a constraint refers to it"
  | .modelInconsistent id => "imposing " ++ id.text ++ " empties a domain at the root"
  | .infeasibleState => "the store is in an infeasible state"
  | .variableNotFound name => "no variable with the name '" ++ name ++ "' exists"
  | .ownershipMismatch =>
      "a variable or snapshot was used with a store which did not create it"

/-- Why an update of a variable is refused. -/
inductive UpdateError where
  /-- The variable belongs to another store. -/
  | ownershipMismatch
  /-- The update is inconsistent, or the store has failed before. -/
  | inconsistent (why : Inconsistency)
  deriving DecidableEq, Repr

/-- What the user reads about an update which is refused. -/
def UpdateError.message : UpdateError → String
  | .ownershipMismatch => "a variable was used with a store which did not create it"
  | .inconsistent why => "the change is inconsistent: " ++ why.name

/-- A rule of use which was broken. -/
inductive Misuse where
  /-- A snapshot is restored while no checkpoint of its own is open. -/
  | staleSnapshot
  /-- A variable is created below the root. -/
  | declaredBelowRoot
  /-- A domain is extended below the root. -/
  | extendedBelowRoot
  /-- A constraint is imposed below the root. -/
  | imposedBelowRoot
  /-- A selector chose a value which was not offered. -/
  | notACandidate (value : Int) (v : Variable)
  /-- A variable of the scope has several values in a solution. -/
  | notFixed (v : Variable)
  /-- A value was to be tried while the last trial is not undone. -/
  | trialOpen
  /-- A variable without values was chosen to branch on. -/
  | nothingToTry
  /-- A value was asked of an empty set of candidates. -/
  | noCandidates
  /-- A random index was asked of an empty range. -/
  | emptyRange
  /-- A variable of another store was looked at. -/
  | foreignVariable (v : Variable) (store : Nat)
  deriving DecidableEq, Repr

/-- What the user reads about a broken rule. -/
def Misuse.message : Misuse → String
  | .staleSnapshot =>
      "a snapshot can only be restored while the snapshots taken after it are not"
  | .declaredBelowRoot => "variables can only be created at the root"
  | .extendedBelowRoot => "domains can only be extended at the root"
  | .imposedBelowRoot => "constraints can only be imposed at the root"
  | .notACandidate value v =>
      "the value selector returned " ++ toString value ++ ", which is not a candidate of " ++ v.text
  | .notFixed v => v.text ++ " is not fixed in a solution"
  | .trialOpen => "assertion failed: choice.snapshot.is_none()"
  | .nothingToTry => "assertion failed: !choice.remaining.is_empty()"
  | .noCandidates => "the candidates are never empty"
  | .emptyRange => "cannot sample empty range"
  | .foreignVariable v store =>
      v.text ++ " was created by StoreId(" ++ toString v.store ++ ") and used with StoreId("
        ++ toString store ++ ")"

/-- How an operation fails. -/
inductive Failure (ε : Type) where
  /-- The request cannot be met. -/
  | refused (error : ε)
  /-- A rule of use is broken. -/
  | misuse (rule : Misuse)
  deriving DecidableEq, Repr

end ConstraintSolver
