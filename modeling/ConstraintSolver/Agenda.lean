import ConstraintSolver.Constraint.Basic

/-! # The agenda — the constraints which wait to be propagated

    A constraint waits at most once.  Constraints leave by priority, and in
    order of arrival within a priority.  Every priority has a lane of its
    own, and a flag for every constraint says whether it waits in one. -/

namespace ConstraintSolver

/-- A line of constraints: the front in order, the back in reverse. -/
structure Lane where
  front : List ConstraintId
  back : List ConstraintId
  deriving DecidableEq

namespace Lane

/-- Nobody waits. -/
def empty : Lane := ⟨[], []⟩

/-- The waiting constraints in order of arrival. -/
def toList (l : Lane) : List ConstraintId := l.front ++ l.back.reverse

/-- Whether nobody waits. -/
def isEmpty (l : Lane) : Bool := l.front.isEmpty && l.back.isEmpty

/-- The number of waiting constraints. -/
def size (l : Lane) : Nat := l.front.length + l.back.length

/-- One more at the end of the line. -/
def push (l : Lane) (id : ConstraintId) : Lane := ⟨l.front, id :: l.back⟩

/-- The first of the line, and the others. -/
def pop? (l : Lane) : Option (ConstraintId × Lane) :=
  match l.front with
  | id :: front => some (id, ⟨front, l.back⟩)
  | [] =>
      match l.back.reverse with
      | id :: front => some (id, ⟨front, []⟩)
      | [] => none

@[simp] theorem toList_push (l : Lane) (id : ConstraintId) :
    (l.push id).toList = l.toList ++ [id] := by
  simp [toList, push]

theorem length_toList (l : Lane) : l.toList.length = l.size := by
  simp [toList, size]

/-- Popping takes the first of the list. -/
theorem pop?_eq (l : Lane) :
    l.pop?.map (fun r => (r.1, r.2.toList)) =
      match l.toList with
      | id :: rest => some (id, rest)
      | [] => none := by
  unfold pop? toList
  cases l.front with
  | cons id front => rfl
  | nil => cases h : l.back.reverse <;> simp

theorem size_of_pop? {l rest : Lane} {id : ConstraintId} (h : l.pop? = some (id, rest)) :
    l.size = rest.size + 1 := by
  have hp := pop?_eq l
  rw [h] at hp
  rw [← length_toList, ← length_toList]
  cases hl : l.toList with
  | nil => rw [hl] at hp; simp at hp
  | cons a as =>
      rw [hl] at hp
      simp only [Option.map_some, Option.some.injEq, Prod.mk.injEq] at hp
      rw [hp.2, List.length_cons]

end Lane

/-- The constraints which wait to be propagated. -/
structure Agenda where
  high : Lane
  medium : Lane
  low : Lane
  /-- For every constraint, whether it waits in a lane. -/
  waiting : Array Bool
  deriving DecidableEq

namespace Agenda

/-- No constraint waits. -/
def empty : Agenda := ⟨Lane.empty, Lane.empty, Lane.empty, #[]⟩

/-- The lane of a priority. -/
def lane (a : Agenda) : Priority → Lane
  | .high => a.high
  | .medium => a.medium
  | .low => a.low

/-- The agenda with another lane at a priority. -/
def setLane (a : Agenda) : Priority → Lane → Agenda
  | .high, l => { a with high := l }
  | .medium, l => { a with medium := l }
  | .low, l => { a with low := l }

/-- The number of waiting constraints. -/
def size (a : Agenda) : Nat := a.high.size + a.medium.size + a.low.size

/-- Whether no constraint waits. -/
def isEmpty (a : Agenda) : Bool := a.size == 0

/-- Whether this constraint waits. -/
def isWaiting (a : Agenda) (id : ConstraintId) : Bool := (a.waiting[id.index]?).getD false

/-- The priorities at which a constraint waits, the most urgent first. -/
def presentPriorities (a : Agenda) : List Priority :=
  [.high, .medium, .low].filter fun p => !(a.lane p).isEmpty

/-- The flags with that of one constraint changed. -/
def setFlag (flags : Array Bool) (index : Nat) (waits : Bool) : Array Bool :=
  (flags ++ Array.replicate (index + 1 - flags.size) false).setIfInBounds index waits

/-- Puts a constraint at the end of the lane of its priority, unless it waits
    already. -/
def enqueue (a : Agenda) (id : ConstraintId) (p : Priority) : Agenda :=
  if a.isWaiting id then a
  else
    let flagged := { a with waiting := setFlag a.waiting id.index true }
    flagged.setLane p ((a.lane p).push id)

/-- Takes the first constraint out of the lane of a priority. -/
def popLane? (a : Agenda) (p : Priority) : Option (ConstraintId × Agenda) :=
  match (a.lane p).pop? with
  | some (id, rest) =>
      some (id, { a.setLane p rest with waiting := setFlag a.waiting id.index false })
  | none => none

/-- Takes the constraint which arrived first among the most urgent ones. -/
def pop? (a : Agenda) : Option (ConstraintId × Agenda) :=
  match a.popLane? .high with
  | some r => some r
  | none =>
      match a.popLane? .medium with
      | some r => some r
      | none => a.popLane? .low

theorem size_of_popLane? {a rest : Agenda} {p : Priority} {id : ConstraintId}
    (h : a.popLane? p = some (id, rest)) : a.size = rest.size + 1 := by
  unfold popLane? at h
  split at h
  · rename_i id' l hl
    have hs := Lane.size_of_pop? hl
    cases h
    cases p
    all_goals
      simp only [size, setLane, lane] at *
      omega
  · cases h

/-- Whoever leaves makes the agenda shorter. -/
theorem size_of_pop? {a rest : Agenda} {id : ConstraintId} (h : a.pop? = some (id, rest)) :
    a.size = rest.size + 1 := by
  unfold pop? at h
  split at h
  · rename_i r hr
    cases h
    exact size_of_popLane? hr
  · split at h
    · rename_i r hr
      cases h
      exact size_of_popLane? hr
    · exact size_of_popLane? h

/-! ## How many can arrive -/

/-- Only the flag of the constraint changes. -/
theorem getElem?_setFlag (flags : Array Bool) (index other : Nat) (waits : Bool) :
    ((setFlag flags index waits)[other]?).getD false =
      if other = index then waits else (flags[other]?).getD false := by
  unfold setFlag
  rw [Array.getElem?_setIfInBounds]
  by_cases hi : index = other
  · subst hi
    rw [if_pos rfl, if_pos rfl, if_pos]
    · rfl
    · simp only [Array.size_append, Array.size_replicate]
      omega
  · rw [if_neg hi, if_neg (Ne.symm hi), Array.getElem?_append]
    split
    · rfl
    · rename_i hge
      rw [Array.getElem?_eq_none (Nat.not_lt.mp hge), Array.getElem?_replicate]
      split <;> rfl

/-- The number of constraints, of the first `count` ones, which do not wait
    according to the flags. -/
def unflagged (flags : Array Bool) : Nat → Nat
  | 0 => 0
  | count + 1 => unflagged flags count + if (flags[count]?).getD false then 0 else 1

theorem unflagged_le (flags : Array Bool) (count : Nat) : unflagged flags count ≤ count := by
  induction count with
  | zero => exact Nat.le_refl _
  | succ count ih =>
      rw [unflagged]
      split <;> omega

/-- A constraint which is flagged is one less to flag. -/
theorem unflagged_setFlag {flags : Array Bool} {index count : Nat}
    (h : (flags[index]?).getD false = false) :
    unflagged (setFlag flags index true) count + (if index < count then 1 else 0) =
      unflagged flags count := by
  induction count with
  | zero => rfl
  | succ count ih =>
      rw [unflagged, unflagged, getElem?_setFlag]
      by_cases hc : count = index
      · subst hc
        simp [h] at ih ⊢
        omega
      · rw [if_neg hc]
        by_cases hlt : index < count
        · rw [if_pos hlt] at ih
          rw [if_pos (Nat.lt_succ_of_lt hlt)]
          omega
        · have hge : ¬ index < count + 1 := by omega
          rw [if_neg hlt] at ih
          rw [if_neg hge]
          omega

theorem size_setLane_push (a : Agenda) (flags : Array Bool) (p : Priority) (id : ConstraintId) :
    (setLane { a with waiting := flags } p ((a.lane p).push id)).size = a.size + 1 := by
  cases p
  all_goals
    simp only [size, setLane, lane, Lane.size, Lane.push, List.length_cons]
    omega

/-- Whoever arrives was not flagged before. -/
theorem size_enqueue {a : Agenda} {id : ConstraintId} {count : Nat} (h : id.index < count)
    (p : Priority) :
    (a.enqueue id p).size + unflagged (a.enqueue id p).waiting count
      = a.size + unflagged a.waiting count := by
  unfold enqueue
  split
  · rfl
  · rename_i hw
    have hflag : unflagged (setFlag a.waiting id.index true) count + _ = _ :=
      unflagged_setFlag (Bool.not_eq_true _ ▸ hw)
    rw [if_pos h] at hflag
    have hwaiting : (setLane { a with waiting := setFlag a.waiting id.index true } p
        ((a.lane p).push id)).waiting = setFlag a.waiting id.index true := by cases p <;> rfl
    simp only
    rw [size_setLane_push, hwaiting]
    omega

end Agenda

end ConstraintSolver
