import ConstraintSolver.Search.Completion
import ConstraintSolver.Search.Selection
import ConstraintSolver.Search.Termination

/-! # Depth-first search — finding solutions one at a time

    The search branches on an unfixed variable of its scope: it tries the
    values of that variable one after the other, and undoes each trial
    before the next.  What is left to try is kept on a stack of choice
    points, so the search can stop at every solution and go on later.

    A search goes from phase to phase (`step`).  It is over when it is
    exhausted, and then the store is as it was before (`finish`). -/

namespace ConstraintSolver

/-- Counters of a search.  The time which it takes is not among them. -/
structure SearchStatistics where
  /-- The number of values which were tried. -/
  decisions : Nat
  /-- The number of inconsistencies. -/
  failures : Nat
  solutions : Nat
  /-- The largest number of open choice points. -/
  peakDepth : Nat
  /-- The number of runs of constraints, known when the search is over. -/
  propagations : Nat
  deriving DecidableEq, Repr

/-- What a search looks for. -/
structure SearchGoal where
  scope : List Variable
  /-- Whether to go on after the first solution. -/
  allSolutions : Bool
  /-- The number of solutions after which to stop. -/
  limit : Option Nat
  deriving DecidableEq, Repr

/-- A variable, and its values which have not been tried. -/
structure ChoicePoint where
  var : Variable
  remaining : Domain
  /-- The state before the value which is being tried was assigned. -/
  saved : Option Store.Snapshot
  deriving DecidableEq

/-- What a search does next. -/
inductive Phase where
  /-- Choose a variable: the store is at a fixpoint. -/
  | selecting
  /-- Try a value of the newest choice point. -/
  | branching
  | propagating
  /-- Undo the newest trial. -/
  | backtracking
  /-- Nothing: the search is over. -/
  | exhausted
  deriving DecidableEq, Repr

/-- The state of a search apart from the store. -/
structure SearchControl (ρ τ : Type) where
  goal : SearchGoal
  random : ρ
  termination : τ
  /-- The open choice points, the newest first. -/
  stack : List ChoicePoint
  phase : Phase
  /-- The state of the store before the search. -/
  root : Option Store.Snapshot
  statistics : SearchStatistics
  status : Option SearchStatus
  /-- The runs of constraints before the search. -/
  initialPropagations : Nat
  /-- More steps than the search can take between two solutions. -/
  patience : Nat

/-- A search in a store. -/
structure Search (ρ τ : Type) where
  control : SearchControl ρ τ
  store : Store

/-- What is answered when a solution is asked for. -/
inductive Answer where
  | solution (s : Solution)
  /-- There are no more solutions to report. -/
  | finished
  /-- There is no solution. -/
  | unsatisfiable
  /-- The search was stopped. -/
  | unknown
  deriving DecidableEq, Repr

/-- The result of a search that is over. -/
structure SearchSummary where
  status : SearchStatus
  statistics : SearchStatistics
  deriving DecidableEq, Repr

namespace SearchSummary

/-- Whether it is proved that there is no solution. -/
def isUnsatisfiable (s : SearchSummary) : Bool :=
  s.status == .complete && s.statistics.solutions == 0

/-- Whether every solution has been reported. -/
def isComplete (s : SearchSummary) : Bool := s.status == .complete

end SearchSummary

namespace SearchControl

variable {ρ τ : Type}

/-- Whether as many solutions have been found as asked for. -/
def limitReached (c : SearchControl ρ τ) : Bool :=
  match c.goal.limit with
  | some limit => limit ≤ c.statistics.solutions
  | none => false

/-- The control in another phase. -/
def goTo (c : SearchControl ρ τ) (phase : Phase) : SearchControl ρ τ := { c with phase := phase }

/-- One inconsistency more; the newest trial has to be undone. -/
def failed (c : SearchControl ρ τ) : SearchControl ρ τ :=
  { c with
    statistics := { c.statistics with failures := c.statistics.failures + 1 }
    phase := .backtracking }

/-- A new choice point on the stack. -/
def opened (c : SearchControl ρ τ) (v : Variable) (candidates : Domain) : SearchControl ρ τ :=
  let stack := ⟨v, candidates, none⟩ :: c.stack
  { c with
    stack := stack
    statistics := { c.statistics with peakDepth := max c.statistics.peakDepth stack.length }
    phase := .branching }

/-- What a search that is over answers. -/
def finalAnswer (c : SearchControl ρ τ) : Answer :=
  match c.status with
  | some .terminated => .unknown
  | some .complete => if c.statistics.solutions = 0 then .unsatisfiable else .finished
  | _ => .finished

end SearchControl

namespace Search

variable {ρ τ : Type}

/-! ## Beginning and end -/

/-- Ends the search: the store is restored and the runs are counted. -/
def finish (s : Search ρ τ) (status : SearchStatus) : Except Misuse Unit × Search ρ τ :=
  match s with
  | ⟨c, store⟩ =>
      match (match c.root with
        | some root => store.restoreOwned root
        | none => (.ok (), store)) with
      | (.error rule, store) => (.error rule, ⟨c, store⟩)
      | (.ok (), store) =>
          let statistics :=
            { c.statistics with propagations := store.propagations - c.initialPropagations }
          (.ok (),
            ⟨{ c with
                stack := []
                root := none
                statistics := statistics
                status := some status
                phase := .exhausted },
              store.note (.searchStopped status statistics.solutions)⟩)

/-- A bound on the steps of a search over `variableCount` variables with
    at most `values` values each. -/
def stepBound (variableCount values : Nat) : Nat := Nat.pow (values + 8) (variableCount + 2)

/-- The number of values of the largest domain of a store. -/
def largestSize (store : Store) : Nat :=
  store.domains.cells.foldl (fun size cell => max size cell.domain.size) 0

/-- A search that has not looked at the store yet.  A limit of no solutions is
    reached at once. -/
def begin (goal : SearchGoal) (random : ρ) (termination : τ) (store : Store) :
    Except Misuse Unit × Search ρ τ :=
  match (store.note (.searchStarted goal.scope.length goal.allSolutions goal.limit)).snapshot with
  | (root, store) =>
      let c : SearchControl ρ τ :=
        { goal := goal
          random := random
          termination := termination
          stack := []
          phase := .propagating
          root := some root
          statistics := ⟨0, 0, 0, 0, 0⟩
          status := none
          initialPropagations := store.propagations
          patience := stepBound store.variableCount (largestSize store) }
      if c.limitReached then finish ⟨c, store⟩ .solutionLimitReached else (.ok (), ⟨c, store⟩)

/-- Begins a search.  Its scope has to belong to the store, and a scope without
    variables is worth a warning. -/
def start (goal : SearchGoal) (random : ρ) (termination : τ) (store : Store) :
    Except (Failure ModelError) (Search ρ τ) :=
  if !goal.scope.all store.owns then .error (.refused .ownershipMismatch)
  else
    let store := if goal.scope.isEmpty then store.note .emptyScope else store
    match begin goal random termination store with
    | (.error rule, _) => .error (.misuse rule)
    | (.ok (), s) => .ok s

/-- Gives the store back, as it was before the search. -/
def release (s : Search ρ τ) : Except Misuse Unit × Store :=
  match s with
  | ⟨c, store⟩ =>
      match c.root with
      | some root => store.restoreOwned root
      | none => (.ok (), store)

/-! ## Steps -/

/-- Propagates the last decision. -/
def propagate (s : Search ρ τ) : Search ρ τ :=
  match s with
  | ⟨c, store⟩ =>
      match store.propagate with
      | (.ok (), store) => ⟨c.goTo .selecting, store⟩
      | (.error why, store) => ⟨c.failed, store.note (.propagationFailed why)⟩

/-- Undoes the newest trial of a choice point with values left to try; choice
    points without are closed. -/
def undoTrial (store : Store) : List ChoicePoint → Except Misuse (List ChoicePoint) × Store
  | [] => (.ok [], store)
  | choice :: older =>
      match (match choice.saved with
        | some saved => store.restoreOwned saved
        | none => (.ok (), store)) with
      | (.error rule, store) => (.error rule, store)
      | (.ok (), store) =>
          if choice.remaining.isEmpty then undoTrial store older
          else (.ok ({ choice with saved := none } :: older), store)

/-- Goes back to the newest choice point with values left to try. -/
def backtrack (s : Search ρ τ) : Except Misuse Unit × Search ρ τ :=
  match s with
  | ⟨c, store⟩ =>
      match undoTrial store c.stack with
      | (.error rule, store) => (.error rule, ⟨c, store⟩)
      | (.ok [], store) => finish ⟨{ c with stack := [] }, store⟩ .complete
      | (.ok (choice :: older), store) =>
          (.ok (), ⟨{ c with stack := choice :: older, phase := .branching }, store⟩)

/-- Assigns a value to the variable of a choice point, and takes it from the
    values left to try. -/
def decide (rule : TerminationRule τ) (s : Search ρ τ) (choice : ChoicePoint)
    (older : List ChoicePoint) (value : Int) : Search ρ τ :=
  match s with
  | ⟨c, store⟩ =>
      match store.snapshot with
      | (saved, store) =>
          let stack := ⟨choice.var, choice.remaining.prune (.except value), some saved⟩ :: older
          let c :=
            { c with
              stack := stack
              termination := rule.decisionMade c.termination
              statistics := { c.statistics with decisions := c.statistics.decisions + 1 } }
          match (store.note (.decision choice.var value stack.length)).assign choice.var value with
          | (.ok (), store) => ⟨c.goTo .propagating, store⟩
          | (.error _, store) => ⟨c.failed, store⟩

/-- Tries a value of the newest choice point. -/
def branch (policy : Policy ρ) (rule : TerminationRule τ) (s : Search ρ τ) :
    Except Misuse Unit × Search ρ τ :=
  match s with
  | ⟨c, store⟩ =>
      match c.stack with
      | [] => (.ok (), ⟨c.goTo .backtracking, store⟩)
      | choice :: older =>
          if choice.saved.isSome then (.error .trialOpen, ⟨c, store⟩)
          else if choice.remaining.isEmpty then (.error .nothingToTry, ⟨c, store⟩)
          else
            match policy.chooseValue store choice.var choice.remaining c.random with
            | .error e => (.error e, ⟨c, store⟩)
            | .ok (value, random) =>
                if choice.remaining.contains value then
                  (.ok (), decide rule ⟨{ c with random := random }, store⟩ choice older value)
                else (.error (.notACandidate value choice.var), ⟨c, store⟩)

/-- The values of the scope, all of which have to be fixed. -/
def readSolution (store : Store) : List Variable → Except Misuse (List Assigned)
  | [] => .ok []
  | v :: vs =>
      match (store.domain v).fixedValue? with
      | none => .error (.notFixed v)
      | some value =>
          match readSolution store vs with
          | .error rule => .error rule
          | .ok entries => .ok (⟨v, store.name v, value⟩ :: entries)

/-- Reports the solution which the store is at, and stops if no more are asked
    for. -/
def report (s : Search ρ τ) : Except Misuse (Option Solution) × Search ρ τ :=
  match s with
  | ⟨c, store⟩ =>
      match readSolution store c.goal.scope with
      | .error rule => (.error rule, ⟨c, store⟩)
      | .ok entries =>
          let solution : Solution := ⟨entries⟩
          let found := c.statistics.solutions + 1
          let c := { c with statistics := { c.statistics with solutions := found } }
          let store := store.note (.solution found solution)
          if !c.goal.allSolutions || c.limitReached then
            match finish ⟨c, store⟩ .solutionLimitReached with
            | (.error rule, s) => (.error rule, s)
            | (.ok (), s) => (.ok (some solution), s)
          else (.ok (some solution), ⟨c.goTo .backtracking, store⟩)

/-- Chooses the next variable; when all are fixed, reports a solution if the
    other variables can be fixed too. -/
def select (policy : Policy ρ) (s : Search ρ τ) :
    Except Misuse (Option Solution) × Search ρ τ :=
  match s with
  | ⟨c, store⟩ =>
      match policy.chooseVariable store c.goal.scope with
      | .error rule => (.error rule, ⟨c, store⟩)
      | .ok (some v) =>
          if store.owns v then (.ok none, ⟨c.opened v (store.domain v), store⟩)
          else (.error (.foreignVariable v store.number), ⟨c, store⟩)
      | .ok none =>
          match store.hasCompletion with
          | (.error rule, store) => (.error rule, ⟨c, store⟩)
          | (.ok true, store) => report ⟨c, store⟩
          | (.ok false, store) => (.ok none, ⟨c.failed, store.note .noCompletion⟩)

/-- An operation which finds no solution. -/
def silently (r : Except Misuse Unit × Search ρ τ) :
    Except Misuse (Option Solution) × Search ρ τ :=
  match r with
  | (.error rule, s) => (.error rule, s)
  | (.ok (), s) => (.ok none, s)

/-- Asks the termination condition before going on. -/
def unlessStopped (rule : TerminationRule τ) (s : Search ρ τ)
    (go : Search ρ τ → Except Misuse (Option Solution) × Search ρ τ) :
    Except Misuse (Option Solution) × Search ρ τ :=
  match s with
  | ⟨c, store⟩ =>
      match rule.shouldStop c.termination with
      | (true, termination) =>
          silently (finish ⟨{ c with termination := termination }, store⟩ .terminated)
      | (false, termination) => go ⟨{ c with termination := termination }, store⟩

/-- One step of the search; it may find a solution. -/
def step (policy : Policy ρ) (rule : TerminationRule τ) (s : Search ρ τ) :
    Except Misuse (Option Solution) × Search ρ τ :=
  match s.control.phase with
  | .propagating => (.ok none, s.propagate)
  | .selecting => s.unlessStopped rule fun s => s.select policy
  | .branching => s.unlessStopped rule fun s => silently (s.branch policy rule)
  | .backtracking => silently s.backtrack
  | .exhausted => (.ok none, s)

/-! ## Solutions -/

/-- Steps until a solution is found or the search is over, at most as many
    times as given. -/
def run (policy : Policy ρ) (rule : TerminationRule τ) :
    Nat → Search ρ τ → Except Misuse Answer × Search ρ τ
  | 0, s => (.ok s.control.finalAnswer, s)
  | steps + 1, s =>
      if s.control.phase = .exhausted then (.ok s.control.finalAnswer, s)
      else
        match s.step policy rule with
        | (.error e, s) => (.error e, s)
        | (.ok (some solution), s) => (.ok (.solution solution), s)
        | (.ok none, s) => run policy rule steps s

/-- The next solution, if there is one. -/
def next (policy : Policy ρ) (rule : TerminationRule τ) (s : Search ρ τ) :
    Except Misuse Answer × Search ρ τ :=
  run policy rule s.control.patience s

/-- Ends the search.  A search which is not over counts as terminated. -/
def summarize (s : Search ρ τ) : Except Misuse SearchSummary × Search ρ τ :=
  match s.control.status with
  | some status => (.ok ⟨status, s.control.statistics⟩, s)
  | none =>
      match s.finish .terminated with
      | (.error rule, s) => (.error rule, s)
      | (.ok (), s) => (.ok ⟨.terminated, s.control.statistics⟩, s)

/-- Asks for solutions until there are no more, and hands each to the
    listener, which may change the termination condition. -/
def collect {σ : Type} (policy : Policy ρ) (rule : TerminationRule τ)
    (listen : Solution → σ × τ → σ × τ) :
    Nat → Search ρ τ → σ → Except Misuse σ × Search ρ τ
  | 0, s, heard => (.ok heard, s)
  | solutions + 1, s, heard =>
      match s.next policy rule with
      | (.error e, s) => (.error e, s)
      | (.ok (.solution solution), ⟨c, store⟩) =>
          match listen solution (heard, c.termination) with
          | (heard, termination) =>
              collect policy rule listen solutions ⟨{ c with termination := termination }, store⟩
                heard
      | (.ok _, s) => (.ok heard, s)

/-- Runs the search to its end. -/
def label {σ : Type} (policy : Policy ρ) (rule : TerminationRule τ)
    (listen : Solution → σ × τ → σ × τ) (s : Search ρ τ) (heard : σ) :
    Except Misuse (SearchSummary × σ) × Search ρ τ :=
  match collect policy rule listen s.control.patience s heard with
  | (.error e, s) => (.error e, s)
  | (.ok heard, s) =>
      match s.summarize with
      | (.error e, s) => (.error e, s)
      | (.ok summary, s) => (.ok (summary, heard), s)

/-- The first solution, if there is one; the store is given back. -/
def first (policy : Policy ρ) (rule : TerminationRule τ) (s : Search ρ τ) :
    Except Misuse (Option Solution) × Store :=
  match s.next policy rule with
  | (.error e, s) => (.error e, s.store)
  | (.ok answer, s) =>
      match s.release with
      | (.error e, store) => (.error e, store)
      | (.ok (), store) =>
          match answer with
          | .solution solution => (.ok (some solution), store)
          | _ => (.ok none, store)

end Search

/-- The goal of a search for just one solution. -/
def SearchGoal.justOne (goal : SearchGoal) : SearchGoal :=
  { goal with allSolutions := false, limit := none }

/-- A listener which keeps solutions, all of them or the first ones, and counts
    all. -/
structure Recording where
  keep : Option Nat
  solutions : Array Solution
  received : Nat
  deriving DecidableEq, Repr

namespace Recording

/-- Nothing has been received. -/
def new (keep : Option Nat) : Recording := ⟨keep, #[], 0⟩

/-- Receives a solution. -/
def hear (r : Recording) (s : Solution) : Recording :=
  let kept :=
    match r.keep with
    | some limit => if r.solutions.size < limit then r.solutions.push s else r.solutions
    | none => r.solutions.push s
  { r with solutions := kept, received := r.received + 1 }

end Recording

end ConstraintSolver
