import ConstraintSolver.Agenda
import ConstraintSolver.Event

/-! # The store — variables, their domains, and the constraints on them

    A store is built at the root by declaring variables.  Every constraint
    is entered in the list of watchers of each variable of its scope, and is
    propagated again when such a variable changes.  This module holds the
    state and what can be asked of it, and declares variables. -/

namespace ConstraintSolver

/-- The state of a model. -/
structure Store where
  domains : Domains
  names : Names
  /-- The constraints in the order in which they were imposed. -/
  constraints : Array Constraint
  /-- For every variable, the constraints whose scope it is in. -/
  watchers : Array (Array ConstraintId)
  agenda : Agenda
  /-- The inconsistency which propagation found, until it is undone. -/
  failure : Option Inconsistency
  /-- How often a constraint has been propagated. -/
  propagations : Nat
  journal : Journal
  deriving DecidableEq

namespace Store

/-- A store without variables.  Stores are told apart by their number. -/
def empty (number : Nat) (listensTo : Option Level) : Store where
  domains := .empty number
  names := .empty
  constraints := #[]
  watchers := #[]
  agenda := .empty
  failure := none
  propagations := 0
  journal := .empty listensTo

/-- Tells an event. -/
def note (s : Store) (e : Event) : Store := { s with journal := s.journal.record e }

/-- The events told since this was last asked. -/
def takeEvents (s : Store) : List Event × Store :=
  (s.journal.events.toList, { s with journal := { s.journal with events := #[] } })

/-! ## Questions -/

/-- The number of the store. -/
def number (s : Store) : Nat := s.domains.owner

/-- Whether the store created the variable. -/
def owns (s : Store) (v : Variable) : Bool := decide (s.domains.Owns v)

/-- The variables in order of declaration. -/
def allVariables (s : Store) : List Variable := s.domains.allVariables

/-- The current domain of a variable. -/
def domain (s : Store) (v : Variable) : Domain := s.domains.get v

/-- The name under which a variable is displayed. -/
def name (s : Store) (v : Variable) : String := s.names.get v.index

/-- The constraints whose scope holds the variable, in order of imposition. -/
def watchersOf (s : Store) (v : Variable) : List ConstraintId :=
  ((s.watchers[v.index]?).getD #[]).toList

/-- The number of constraints whose scope holds the variable. -/
def watcherCount (s : Store) (v : Variable) : Nat := ((s.watchers[v.index]?).getD #[]).size

/-- The constraint which was imposed under an id. -/
def constraint? (s : Store) (id : ConstraintId) : Option Constraint := s.constraints[id.index]?

/-- The number of variables. -/
def variableCount (s : Store) : Nat := s.domains.cells.size

/-- The number of constraints. -/
def constraintCount (s : Store) : Nat := s.constraints.size

/-- Whether propagation found an inconsistency which has not been undone. -/
def isFailed (s : Store) : Bool := s.failure.isSome

/-- The number of snapshots which can still be restored. -/
def depth (s : Store) : Nat := s.domains.depth

/-- The variable which was declared with a name. -/
def lookup (s : Store) (name : String) : Except ModelError Variable :=
  match s.names.find? name with
  | some index => .ok ⟨s.number, index⟩
  | none => .error (.variableNotFound name)

/-- Looking at a variable of another store breaks a rule of use. -/
def guardOwned (s : Store) (v : Variable) : Except Misuse Unit :=
  if s.owns v then .ok () else .error (.foreignVariable v s.number)

/-- The unfixed variables of the constraints about which nothing is decided,
    in order of first occurrence. -/
def undecidedVariables (s : Store) : List Variable :=
  Constraint.firsts
    (((Constraint.undecided s.domain s.constraints.toList).flatMap Constraint.scope).filter
      fun v => !(s.domain v).isFixed)

/-- How a store is written: a line for every variable, and a summary. -/
def text (s : Store) : String :=
  "\n".intercalate
    (["*** Store"]
      ++ s.allVariables.map (fun v => s.name v ++ " :: " ++ (s.domain v).text)
      ++ [toString s.constraintCount ++ " constraints, "
            ++ if s.isFailed then "failed" else "consistent"])

/-! ## Declaring variables -/

/-- A new variable, if the name is available and no checkpoint is open. -/
def declare (s : Store) (d : Domain) (name : Option String) :
    Except (Failure ModelError) Variable × Store :=
  match (match name with | some n => s.names.check n | none => .ok ()) with
  | .error e => (.error (.refused (.naming e)), s)
  | .ok () =>
      if s.depth ≠ 0 then (.error (.misuse .declaredBelowRoot), s)
      else
        match s.domains.push d with
        | (v, domains) =>
            let names := s.names.add name
            (.ok v,
              { s with
                domains := domains
                names := names
                watchers := s.watchers.push #[]
                journal := s.journal.record (.declared (names.get v.index) d) })

/-- A new variable with the values from `lower` to `upper`. -/
def newInteger (s : Store) (lower upper : Int) (name : Option String) :
    Except (Failure ModelError) Variable × Store :=
  match Domain.ofBounds? lower upper with
  | .error e => (.error (.refused (.domain e)), s)
  | .ok d => s.declare d name

/-- A new variable with the given values. -/
def newSparse (s : Store) (values : List Int) (name : Option String) :
    Except (Failure ModelError) Variable × Store :=
  match Domain.ofValues? values with
  | .error e => (.error (.refused (.domain e)), s)
  | .ok d => s.declare d name

/-- A new variable with the values 0 and 1.  An anonymous one is built up from
    the value 0. -/
def newBoolean (s : Store) (name : Option String) :
    Except (Failure ModelError) Variable × Store :=
  if name.isNone && s.depth != 0 then (.error (.misuse .extendedBelowRoot), s)
  else s.declare (Domain.between 0 1) name

/-- Adds the values from `lower` to `upper` to a variable which no constraint
    refers to. -/
def extendDomain (s : Store) (v : Variable) (lower upper : Int) :
    Except (Failure ModelError) Unit × Store :=
  if !s.owns v then (.error (.refused .ownershipMismatch), s)
  else if s.watcherCount v ≠ 0 then (.error (.refused (.domainFrozen (s.name v))), s)
  else
    match Domain.ofBounds? lower upper with
    | .error e => (.error (.refused (.domain e)), s)
    | .ok extra =>
        if s.depth ≠ 0 then (.error (.misuse .extendedBelowRoot), s)
        else (.ok (), { s with domains := s.domains.extend v extra })

end Store

end ConstraintSolver
