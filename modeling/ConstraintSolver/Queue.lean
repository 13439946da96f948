import ConstraintSolver.Agenda

/-! # The queue — the agenda with its own records

    How many constraints wait, and at which priorities, can be read off the
    lanes of an agenda.  A queue keeps both on record instead: a counter, and
    a heap with every priority at which a constraint waits.  Nothing looks
    at an empty lane then: the heap says where the next constraint leaves,
    and which lanes there are to clear. -/

namespace ConstraintSolver

/-- An agenda, the number of waiting constraints, and the priorities at which
    one waits. -/
structure Queue extends Agenda where
  count : Nat
  /-- The heap; `top?` is what lies on top of it. -/
  present : List Priority
  deriving DecidableEq

namespace Queue

/-- No constraint waits. -/
def empty : Queue := ⟨Agenda.empty, 0, []⟩

/-- Whether no constraint waits. -/
def isEmpty (q : Queue) : Bool := q.count == 0

/-- The most urgent priority of a heap. -/
def top? (present : List Priority) : Option Priority :=
  [.high, .medium, .low].find? fun p => decide (p ∈ present)

/-- Puts a constraint at the end of the lane of its priority, unless it waits
    already. -/
def enqueue (q : Queue) (id : ConstraintId) (p : Priority) : Queue :=
  if q.isWaiting id then q
  else
    { toAgenda := q.toAgenda.enqueue id p
      count := q.count + 1
      present := if (q.lane p).isEmpty then p :: q.present else q.present }

/-- Takes the first constraint out of the lane on top of the heap.  The
    priority leaves the heap with the last constraint of its lane. -/
def pop? (q : Queue) : Option (ConstraintId × Queue) :=
  match top? q.present with
  | none => none
  | some p =>
      match q.toAgenda.popLane? p with
      | none => none
      | some (id, rest) =>
          some (id,
            { toAgenda := rest
              count := q.count - 1
              present := if (rest.lane p).isEmpty then q.present.erase p else q.present })

/-- Clears the lanes on the heap, and every flag. -/
def clear (q : Queue) : Queue :=
  let cleared := q.present.foldl (fun a p => a.setLane p Lane.empty) q.toAgenda
  { toAgenda := { cleared with waiting := q.waiting.map fun _ => false }
    count := 0
    present := [] }

end Queue

end ConstraintSolver
