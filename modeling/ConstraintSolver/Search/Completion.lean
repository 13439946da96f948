import ConstraintSolver.Search.TieBreaker
import ConstraintSolver.Store.Propagation

/-! # Completion — can the variables outside the scope be fixed?

    When all variables of the scope are fixed, other variables may still
    have several values, and propagation alone does not decide whether some
    of these values satisfy all constraints.  The completion check tries
    them: it branches on the undecided variable with the fewest values, and
    leaves the store as it was. -/

namespace ConstraintSolver

theorem Domain.mem_of_min? {d : Domain} {v : Int} (h : d.min? = some v) : v ∈ d := by
  unfold Domain.min? at h
  cases hl : d.intervals with
  | nil => rw [hl] at h; simp at h
  | cons i rest =>
      rw [hl] at h
      simp only [List.head?_cons, Option.map_some, Option.some.injEq] at h
      have hi : i ∈ d.intervals := by simp [hl]
      have hv := d.canonical.valid i hi
      simp only [Interval.Valid] at hv
      exact ⟨i, hi, by rw [Interval.mem_def]; omega⟩

/-- A value that was tried is one less to try. -/
theorem Domain.size_except_lt {d : Domain} {v : Int} (h : v ∈ d) :
    (d.prune (.except v)).size < d.size := by
  refine Domain.size_prune_lt fun heq => ?_
  have : v ∈ d.prune (.except v) := by rw [heq]; exact h
  exact (Domain.mem_prune.mp this).2 rfl

namespace Store

/-- Returns to a snapshot of this store, which has to be open still. -/
def restoreOwned (s : Store) (saved : Snapshot) : Except Misuse Unit × Store :=
  match s.restore saved with
  | (.ok (), t) => (.ok (), t)
  | (.error (.misuse rule), t) => (.error rule, t)
  | (.error (.refused _), t) => (.error .staleSnapshot, t)

/-- Assigns a value and propagates; answers whether both succeed. -/
def tryValue (s : Store) (v : Variable) (value : Int) : Bool × Store :=
  match s.assign v value with
  | (.error _, t) => (false, t)
  | (.ok (), t) =>
      match t.propagate with
      | (.error _, t) => (false, t)
      | (.ok (), t) => (true, t)

/-- Whether `complete` succeeds after one of the candidates has been assigned
    to `v`.  The candidates are tried in increasing order, and every trial is
    undone. -/
def anyCandidate (complete : Store → Except Misuse Bool × Store) (v : Variable)
    (candidates : Domain) (s : Store) : Except Misuse Bool × Store :=
  match _h : candidates.min? with
  | none => (.ok false, s)
  | some value =>
      match s.snapshot with
      | (saved, s) =>
          match (match s.tryValue v value with
            | (true, t) => complete t
            | (false, t) => (.ok false, t)) with
          | (.error rule, t) => (.error rule, t)
          | (.ok completed, t) =>
              match t.restoreOwned saved with
              | (.error rule, t) => (.error rule, t)
              | (.ok (), t) =>
                  if completed then (.ok true, t)
                  else anyCandidate complete v (candidates.prune (.except value)) t
termination_by candidates.size
decreasing_by exact Domain.size_except_lt (Domain.mem_of_min? _h)

/-- The completion check, with a bound on the number of variables it branches
    on. -/
def completes : Nat → Store → Except Misuse Bool × Store
  | 0, s => (.ok false, s)
  | depth + 1, s =>
      match TieBreaker.best? .minimum s.undecidedVariables fun v => (s.domain v).size with
      | none => (.ok true, s)
      | some v => anyCandidate (completes depth) v (s.domain v) s

/-- Whether the unfixed variables can be fixed such that every constraint
    holds.  Every level of the check fixes a variable, so it never goes deeper
    than there are variables. -/
def hasCompletion (s : Store) : Except Misuse Bool × Store :=
  s.completes (s.variableCount + 1)

end Store

end ConstraintSolver
