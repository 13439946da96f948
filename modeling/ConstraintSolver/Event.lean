import ConstraintSolver.Error
import ConstraintSolver.Solution

/-! # Events — what a store and its searches tell about their work

    Every noteworthy step is an event with a level.  A journal keeps the
    events which are at least as important as it was asked to. -/

namespace ConstraintSolver

/-- How important an event is. -/
inductive Level where
  | warn
  | info
  | debug
  | trace
  deriving DecidableEq, Repr

namespace Level

/-- The position of a level, the most important first. -/
def rank : Level → Nat
  | warn => 0
  | info => 1
  | debug => 2
  | trace => 3

/-- The name of a level. -/
def name : Level → String
  | warn => "WARN"
  | info => "INFO"
  | debug => "DEBUG"
  | trace => "TRACE"

end Level

/-- What a single run of a constraint did. -/
inductive Outcome where
  | noChange
  | domainChanged
  | failed
  deriving DecidableEq, Repr

/-- The name of an outcome. -/
def Outcome.name : Outcome → String
  | .noChange => "NoChange"
  | .domainChanged => "DomainChanged"
  | .failed => "Failed"

/-- Why a search stopped. -/
inductive SearchStatus where
  /-- The whole search space was explored. -/
  | complete
  /-- As many solutions were found as asked for. -/
  | solutionLimitReached
  /-- The termination condition said so. -/
  | terminated
  deriving DecidableEq, Repr

/-- The name of a status. -/
def SearchStatus.name : SearchStatus → String
  | .complete => "Complete"
  | .solutionLimitReached => "SolutionLimitReached"
  | .terminated => "Terminated"

/-- Something worth telling. -/
inductive Event where
  | declared (name : String) (domain : Domain)
  | imposing (c : Constraint)
  | inconsistentAtRoot (id : ConstraintId) (why : Inconsistency)
  | propagated (id : ConstraintId) (outcome : Outcome)
  | emptyScope
  | searchStarted (scopeSize : Nat) (allSolutions : Bool) (limit : Option Nat)
  | propagationFailed (why : Inconsistency)
  | decision (v : Variable) (value : Int) (depth : Nat)
  | noCompletion
  | solution (number : Nat) (s : Solution)
  | searchStopped (status : SearchStatus) (solutions : Nat)
  | modelBuilt (overview : String)
  deriving DecidableEq

namespace Event

/-- How important the event is. -/
def level : Event → Level
  | declared .. => .trace
  | imposing _ => .debug
  | inconsistentAtRoot .. => .debug
  | propagated .. => .trace
  | emptyScope => .warn
  | searchStarted .. => .debug
  | propagationFailed _ => .trace
  | decision .. => .trace
  | noCompletion => .trace
  | solution .. => .debug
  | searchStopped .. => .debug
  | modelBuilt _ => .debug

/-- How a limit on the number of solutions is written. -/
def limitText : Option Nat → String
  | none => "None"
  | some limit => "Some(" ++ toString limit ++ ")"

/-- How the event is told. -/
def text : Event → String
  | declared name domain => "declared " ++ name ++ " :: " ++ domain.text
  | imposing c => "imposing " ++ c.text
  | inconsistentAtRoot id why => id.text ++ " is inconsistent at the root: " ++ why.name
  | propagated id outcome => "propagated " ++ id.text ++ ": " ++ outcome.name
  | emptyScope =>
      "The search scope is empty, the search reports at most one (empty) solution"
  | searchStarted scopeSize allSolutions limit =>
      "Starting search over " ++ toString scopeSize ++ " variables (all solutions: "
        ++ toString allSolutions ++ ", limit: " ++ limitText limit ++ ")"
  | propagationFailed why => "Propagation failed: " ++ why.name
  | decision v value depth =>
      "Decision " ++ v.text ++ " = " ++ toString value ++ " at depth " ++ toString depth
  | noCompletion => "The variables outside the scope cannot be completed"
  | solution number s => "Solution " ++ toString number ++ ": " ++ s.text
  | searchStopped status solutions =>
      "Search stopped: " ++ status.name ++ " after " ++ toString solutions ++ " solutions"
  | modelBuilt overview => overview

end Event

/-- The events which were told, if anyone listens. -/
structure Journal where
  /-- The least important level that is kept. -/
  listensTo : Option Level
  events : Array Event
  deriving DecidableEq

namespace Journal

/-- A journal in which nothing has been written. -/
def empty (listensTo : Option Level) : Journal := ⟨listensTo, #[]⟩

/-- Whether events of this level are kept. -/
def accepts (j : Journal) (level : Level) : Bool :=
  match j.listensTo with
  | some threshold => level.rank ≤ threshold.rank
  | none => false

/-- Tells an event. -/
def record (j : Journal) (e : Event) : Journal :=
  if j.accepts e.level then { j with events := j.events.push e } else j

end Journal

end ConstraintSolver
