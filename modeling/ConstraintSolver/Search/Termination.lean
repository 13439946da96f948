/-! # Termination conditions

    A search asks before every decision whether it has to stop, and reports
    every decision it makes.  The built-in conditions count decisions, watch
    a cancellation, or combine other conditions. -/

namespace ConstraintSolver

/-- How a search asks; `τ` is the state of the condition. -/
structure TerminationRule (τ : Type) where
  shouldStop : τ → Bool × τ
  decisionMade : τ → τ

/-- The built-in conditions.  One that is kept behind a pointer hands both
    questions on, and is not told from the condition itself. -/
inductive Condition where
  /-- Never stops. -/
  | indefinite
  /-- Stops after a number of decisions. -/
  | budget (limit made : Nat)
  /-- Stops once the search is cancelled. -/
  | cancellation
  /-- Stops when the time is over.  The clock is left out: a budget of no time
      is over at once, and any other never. -/
  | time (milliseconds : Nat)
  /-- The absent condition. -/
  | absent
  /-- A condition that is present. -/
  | present (condition : Condition)
  /-- Stops when one of two conditions does. -/
  | either (first second : Condition)
  deriving DecidableEq, Repr

namespace Condition

/-- Whether the search has to stop. -/
def shouldStop (cancelled : Bool) : Condition → Bool
  | indefinite => false
  | budget limit made => limit ≤ made
  | cancellation => cancelled
  | time milliseconds => milliseconds == 0
  | absent => false
  | present condition => condition.shouldStop cancelled
  | either first second => first.shouldStop cancelled || second.shouldStop cancelled

/-- The condition after one more decision. -/
def decisionMade : Condition → Condition
  | indefinite => indefinite
  | budget limit made => budget limit (made + 1)
  | cancellation => cancellation
  | time milliseconds => time milliseconds
  | absent => absent
  | present condition => present condition.decisionMade
  | either first second => either first.decisionMade second.decisionMade

end Condition

/-- A condition, and whether the search has been cancelled. -/
structure Watch where
  condition : Condition
  cancelled : Bool
  deriving DecidableEq, Repr

namespace Watch

/-- A watch on a search which has not been cancelled. -/
def new (condition : Condition) : Watch := ⟨condition, false⟩

/-- Whether the search has to stop. -/
def shouldStop (w : Watch) : Bool := w.condition.shouldStop w.cancelled

/-- The watch after one more decision. -/
def decisionMade (w : Watch) : Watch := { w with condition := w.condition.decisionMade }

/-- Cancels the search. -/
def cancel (w : Watch) : Watch := { w with cancelled := true }

/-- How a search asks a watch. -/
def rule : TerminationRule Watch where
  shouldStop w := (w.shouldStop, w)
  decisionMade := decisionMade

end Watch

end ConstraintSolver
