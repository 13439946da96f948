/-! # Breaking ties

    A tie breaker looks at candidates one after the other and keeps the best
    it has seen.  A later candidate replaces it only if it is strictly
    better, so of several best candidates the first is selected. -/

namespace ConstraintSolver

/-- Whether large or small keys are good. -/
inductive Direction where
  | maximum
  | minimum
  deriving DecidableEq, Repr

/-- The best candidate seen so far, with its key. -/
structure TieBreaker (α κ : Type) where
  direction : Direction
  selected : Option (α × κ)
  deriving DecidableEq, Repr

namespace TieBreaker

variable {α κ : Type} [LT κ] [DecidableLT κ]

/-- Nothing has been seen. -/
def new (direction : Direction) : TieBreaker α κ := ⟨direction, none⟩

/-- Whether the first key is strictly better than the second. -/
def better (direction : Direction) (key best : κ) : Bool :=
  match direction with
  | .maximum => best < key
  | .minimum => key < best

/-- Looks at a candidate. -/
def consider (t : TieBreaker α κ) (candidate : α) (key : κ) : TieBreaker α κ :=
  match t.selected with
  | none => { t with selected := some (candidate, key) }
  | some (_, best) =>
      if better t.direction key best then { t with selected := some (candidate, key) } else t

/-- The best candidate; the tie breaker starts anew. -/
def select (t : TieBreaker α κ) : Option α × TieBreaker α κ :=
  (t.selected.map Prod.fst, { t with selected := none })

/-- The first of the best candidates. -/
def best? (direction : Direction) (candidates : List α) (key : α → κ) : Option α :=
  (candidates.foldl (fun t c => t.consider c (key c)) (new direction)).select.1

end TieBreaker

end ConstraintSolver
