import ConstraintSolver.Queue
import ConstraintSolver.Proofs.Waiting

/-! # Queueing — first come, first served, the most urgent first

    What a queue of constraints has to do is said by a list of arrivals:
    whoever is in it already does not arrive again, and the earliest arrival
    among the most urgent ones leaves.  The agenda splits this list into
    lanes (`Agenda.Holds`), and the queue keeps records of the lanes
    (`Queue.Holds`).

    Each operation keeps the split, and gives the answer the list gives.
    `Discipline.Follows.run` lifts this to all histories: nobody who only
    sees answers can tell the three apart. -/

namespace ConstraintSolver

/-! ## Histories -/

namespace Discipline

/-- What can be asked of a queue. -/
inductive Request where
  /-- The constraint is to wait. -/
  | enqueue (id : ConstraintId)
  /-- The next constraint is to leave. -/
  | pop
  /-- Nobody is to wait. -/
  | clear
  /-- Does nobody wait? -/
  | isEmpty
  /-- Does the constraint wait? -/
  | isWaiting (id : ConstraintId)
  deriving DecidableEq, Repr

/-- What a queue answers. -/
inductive Answer where
  /-- It has been done. -/
  | done
  /-- This constraint has left, or there was none. -/
  | departed (id : Option ConstraintId)
  /-- Yes or no. -/
  | told (yes : Bool)
  deriving DecidableEq, Repr

end Discipline

/-- A way to keep waiting constraints. -/
structure Discipline (σ : Type) where
  initial : σ
  enqueue : σ → ConstraintId → Priority → σ
  pop? : σ → Option (ConstraintId × σ)
  clear : σ → σ
  isEmpty : σ → Bool
  isWaiting : σ → ConstraintId → Bool

namespace Discipline

variable {σ τ : Type} (D : Discipline σ) (E : Discipline τ) (priority : ConstraintId → Priority)

/-- The answer to one request, and the state after it.  Every constraint
    arrives at its own priority. -/
def step (s : σ) : Request → Answer × σ
  | .enqueue id => (.done, D.enqueue s id (priority id))
  | .pop =>
      match D.pop? s with
      | none => (.departed none, s)
      | some (id, rest) => (.departed (some id), rest)
  | .clear => (.done, D.clear s)
  | .isEmpty => (.told (D.isEmpty s), s)
  | .isWaiting id => (.told (D.isWaiting s id), s)

/-- The answers to several requests, and the state after them. -/
def run (s : σ) : List Request → List Answer × σ
  | [] => ([], s)
  | r :: rs =>
      let next := D.step priority s r
      let later := run next.2 rs
      (next.1 :: later.1, later.2)

/-- Every operation of `D` does to related states what the one of `E` does. -/
structure Follows (R : σ → τ → Prop) : Prop where
  initial : R D.initial E.initial
  enqueue : ∀ {s t}, R s t → ∀ id, R (D.enqueue s id (priority id)) (E.enqueue t id (priority id))
  pop_none : ∀ {s t}, R s t → E.pop? t = none → D.pop? s = none
  pop_some : ∀ {s t id t'}, R s t → E.pop? t = some (id, t') →
    ∃ s', D.pop? s = some (id, s') ∧ R s' t'
  clear : ∀ {s t}, R s t → R (D.clear s) (E.clear t)
  isEmpty : ∀ {s t}, R s t → D.isEmpty s = E.isEmpty t
  isWaiting : ∀ {s t}, R s t → ∀ id, D.isWaiting s id = E.isWaiting t id

variable {D E priority} {R : σ → τ → Prop}

/-- One request: the same answer, and related states after it. -/
theorem Follows.step (h : D.Follows E priority R) {s : σ} {t : τ} (hst : R s t) (r : Request) :
    (D.step priority s r).1 = (E.step priority t r).1 ∧
      R (D.step priority s r).2 (E.step priority t r).2 := by
  cases r with
  | enqueue id => exact ⟨rfl, h.enqueue hst id⟩
  | pop =>
      cases hpop : E.pop? t with
      | none =>
          simp only [Discipline.step, hpop, h.pop_none hst hpop, true_and]
          exact hst
      | some left =>
          obtain ⟨id, t'⟩ := left
          obtain ⟨s', hs, hrest⟩ := h.pop_some hst hpop
          simp only [Discipline.step, hpop, hs, true_and]
          exact hrest
  | clear => exact ⟨rfl, h.clear hst⟩
  | isEmpty => exact ⟨congrArg Answer.told (h.isEmpty hst), hst⟩
  | isWaiting id => exact ⟨congrArg Answer.told (h.isWaiting hst id), hst⟩

/-- A whole history: the same answers, and related states after it. -/
theorem Follows.run (h : D.Follows E priority R) {s : σ} {t : τ} (hst : R s t)
    (rs : List Request) :
    (D.run priority s rs).1 = (E.run priority t rs).1 ∧
      R (D.run priority s rs).2 (E.run priority t rs).2 := by
  induction rs generalizing s t with
  | nil => exact ⟨rfl, hst⟩
  | cons r rs ih =>
      obtain ⟨hanswer, hnext⟩ := h.step hst r
      obtain ⟨hanswers, hlast⟩ := ih hnext
      exact ⟨congrArg₂ List.cons hanswer hanswers, hlast⟩

end Discipline

/-! ## Arrivals -/

/-- How many priorities are more urgent. -/
def Priority.rank : Priority → Nat
  | .high => 0
  | .medium => 1
  | .low => 2

/-- Priorities of the same rank are the same. -/
theorem Priority.rank_injective {p q : Priority} (h : p.rank = q.rank) : p = q := by
  cases p <;> cases q <;> simp [Priority.rank] at h ⊢

namespace Arrivals

variable (priority : ConstraintId → Priority)

/-- Whoever waits already does not arrive again. -/
def enqueue (l : List ConstraintId) (id : ConstraintId) : List ConstraintId :=
  if id ∈ l then l else l ++ [id]

/-- The earliest arrival among those which nobody precedes in urgency. -/
def first? (l : List ConstraintId) : Option ConstraintId :=
  l.find? fun id => l.all fun other => (priority id).rank ≤ (priority other).rank

/-- The earliest arrival among the most urgent ones leaves. -/
def pop? (l : List ConstraintId) : Option (ConstraintId × List ConstraintId) :=
  (first? priority l).map fun id => (id, l.erase id)

/-- The list of the waiting constraints in order of arrival. -/
def discipline : Discipline (List ConstraintId) where
  initial := []
  enqueue l id _ := enqueue l id
  pop? := pop? priority
  clear _ := []
  isEmpty l := l.isEmpty
  isWaiting l id := decide (id ∈ l)

/-- The arrivals at one priority. -/
def lane (l : List ConstraintId) (p : Priority) : List ConstraintId :=
  l.filter fun id => priority id = p

variable {priority} {l : List ConstraintId} {p : Priority}

/-- A constraint is in the lane of its priority, and in no other. -/
theorem mem_lane {id : ConstraintId} : id ∈ lane priority l p ↔ id ∈ l ∧ priority id = p := by
  rw [lane, List.mem_filter, decide_eq_true_eq]

/-- The latest arrival is the last one in the lane of its priority. -/
theorem lane_concat (id : ConstraintId) :
    lane priority (l ++ [id]) p
      = if priority id = p then lane priority l p ++ [id] else lane priority l p := by
  rw [lane, List.filter_append]
  split
  · rename_i h
    simp [lane, h]
  · rename_i h
    simp [lane, h]

/-- Among the most urgent ones, the first of the lane is the first of all. -/
theorem first?_eq {id : ConstraintId} {rest : List ConstraintId}
    (hlane : lane priority l p = id :: rest)
    (hurgent : ∀ other ∈ l, p.rank ≤ (priority other).rank) :
    first? priority l = some id := by
  have hid : id ∈ l ∧ priority id = p := mem_lane.mp (hlane ▸ List.mem_cons_self)
  have hmost : ∀ x ∈ l, (l.all fun other => decide ((priority x).rank ≤ (priority other).rank))
      = decide (priority x = p) := by
    intro x hx
    rw [Bool.eq_iff_iff, List.all_eq_true, decide_eq_true_eq]
    constructor
    · intro hall
      have hle := of_decide_eq_true (hall id hid.1)
      rw [hid.2] at hle
      exact Priority.rank_injective (Nat.le_antisymm hle (hurgent x hx))
    · rintro rfl other hother
      exact decide_eq_true (hurgent other hother)
  calc first? priority l = (l.filter fun x => _).head? := List.head?_filter.symm
    _ = (lane priority l p).head? := congrArg List.head? (List.filter_congr hmost)
    _ = some id := by rw [hlane]; rfl

/-- The first of a lane leaves it, and the other lanes are as before. -/
theorem lane_erase (hnodup : l.Nodup) {id : ConstraintId} {rest : List ConstraintId}
    (hlane : lane priority l p = id :: rest) (q : Priority) :
    lane priority (l.erase id) q = if q = p then rest else lane priority l q := by
  have herase : lane priority (l.erase id) q = (lane priority l q).erase id := by
    rw [lane, lane, List.Nodup.erase_eq_filter hnodup,
      List.Nodup.erase_eq_filter (hnodup.filter _), List.filter_comm]
  have hid : id ∈ l ∧ priority id = p := mem_lane.mp (hlane ▸ List.mem_cons_self)
  rw [herase]
  split
  · rename_i hq
    rw [hq, hlane, List.erase_cons_head]
  · rename_i hq
    refine List.erase_of_not_mem fun hmem => hq ?_
    exact (mem_lane.mp hmem).2.symm.trans hid.2

end Arrivals

/-! ## The lanes of an agenda -/

/-- A lane is empty exactly if nothing is in it. -/
theorem Lane.isEmpty_iff {l : Lane} : l.isEmpty = true ↔ l.toList = [] := by
  simp [Lane.isEmpty, Lane.toList]

namespace Agenda

variable {priority : ConstraintId → Priority} {a : Agenda} {l : List ConstraintId} {p : Priority}

theorem lane_flagged (a : Agenda) (flags : Array Bool) (q : Priority) :
    Agenda.lane { a with waiting := flags } q = a.lane q := by
  cases q <;> rfl

theorem lane_setLane (a : Agenda) (p : Priority) (line : Lane) (q : Priority) :
    (a.setLane p line).lane q = if q = p then line else a.lane q := by
  cases p <;> cases q <;> rfl

/-- The agenda of a store, which starts anew when it is cleared. -/
def discipline : Discipline Agenda where
  initial := empty
  enqueue := enqueue
  pop? := pop?
  clear _ := empty
  isEmpty := isEmpty
  isWaiting := isWaiting

/-- The lanes hold the arrivals, each in the lane of its priority, and the flags
    say which ones they are. -/
structure Holds (priority : ConstraintId → Priority) (a : Agenda) (l : List ConstraintId) :
    Prop where
  nodup : l.Nodup
  lanes : ∀ p, (a.lane p).toList = Arrivals.lane priority l p
  flags : ∀ id, a.isWaiting id = decide (id ∈ l)

theorem holds_empty : Holds priority empty [] := by
  refine ⟨List.nodup_nil, fun p => ?_, fun id => ?_⟩
  · cases p <;> rfl
  · simp [isWaiting, empty]

/-- A constraint that does not wait is pushed on one lane, and the others stay as they are. -/
theorem lane_enqueue {id : ConstraintId} (h : ¬ a.isWaiting id = true) (p q : Priority) :
    (a.enqueue id p).lane q = if q = p then (a.lane p).push id else a.lane q := by
  rw [enqueue, if_neg h, lane_setLane, lane_flagged a (setFlag a.waiting id.index true)]

/-- Whoever arrives goes to the end of one lane. -/
theorem Holds.enqueue (h : a.Holds priority l) (id : ConstraintId) :
    (a.enqueue id (priority id)).Holds priority (Arrivals.enqueue l id) := by
  -- a constraint that waits is not entered again
  by_cases hid : id ∈ l
  · rw [Arrivals.enqueue, if_pos hid, enqueue_of_waiting ((h.flags id).trans (decide_eq_true hid))]
    exact h
  · have hwaits : ¬ a.isWaiting id = true := by simp [h.flags, hid]
    rw [Arrivals.enqueue, if_neg hid]
    refine ⟨?_, fun p => ?_, fun other => ?_⟩
    · refine List.nodup_append.mpr ⟨h.nodup, List.nodup_singleton id, fun x hx y hy hxy => hid ?_⟩
      exact List.mem_singleton.mp hy ▸ hxy ▸ hx
    · rw [lane_enqueue hwaits, Arrivals.lane_concat, ← h.lanes]
      by_cases hp : p = priority id
      · rw [if_pos hp, if_pos hp.symm, Lane.toList_push, hp]
      · rw [if_neg hp, if_neg (Ne.symm hp)]
    · have hflags : (a.enqueue id (priority id)).waiting = setFlag a.waiting id.index true := by
        rw [Agenda.enqueue, if_neg hwaits, waiting_setLane]
      rw [isWaiting_setFlag _ a.waiting id other true hflags]
      by_cases hother : other = id
      · simp [hother]
      · rw [if_neg hother]
        exact (h.flags other).trans (by simp [hother])

/-- Nothing can be popped exactly from the empty lanes. -/
theorem popLane?_eq_none_iff : a.popLane? p = none ↔ (a.lane p).isEmpty = true := by
  rw [Lane.isEmpty_iff]
  refine ⟨toList_lane_of_popLane, fun hnil => ?_⟩
  have hpop := (a.lane p).pop?_eq
  rw [hnil] at hpop
  rw [popLane?, Option.map_eq_none_iff.mp hpop]

theorem isEmpty_of_popLane?_some {r : ConstraintId × Agenda} (h : a.popLane? p = some r) :
    (a.lane p).isEmpty = false := by
  rw [← Bool.not_eq_true, ← popLane?_eq_none_iff, h]
  exact Option.some_ne_none r

/-- Leaving takes the first of the first lane that is not empty. -/
theorem pop?_eq (a : Agenda) : a.pop? = a.presentPriorities.head?.bind a.popLane? := by
  rw [pop?, presentPriorities]
  cases hhigh : a.popLane? .high with
  | some r => simp [isEmpty_of_popLane?_some hhigh, hhigh]
  | none =>
      have h1 := popLane?_eq_none_iff.mp hhigh
      cases hmedium : a.popLane? .medium with
      | some r => simp [h1, isEmpty_of_popLane?_some hmedium, hmedium]
      | none =>
          have h2 := popLane?_eq_none_iff.mp hmedium
          cases hlow : a.popLane? .low with
          | some r => simp [h1, h2, isEmpty_of_popLane?_some hlow, hlow]
          | none => simp [h1, h2, popLane?_eq_none_iff.mp hlow]

/-- The priorities which are present are those whose lanes are not empty. -/
theorem mem_presentPriorities : p ∈ a.presentPriorities ↔ (a.lane p).isEmpty = false := by
  cases p <;> simp [presentPriorities]

/-- The priorities which are present are listed from the most urgent one on. -/
theorem presentPriorities_ascending (a : Agenda) :
    a.presentPriorities.Pairwise fun p q => p.rank ≤ q.rank :=
  List.Pairwise.filter _ (by simp [Priority.rank])

/-- The first priority at which somebody waits is the most urgent one. -/
theorem head?_presentPriorities (h : a.presentPriorities.head? = some p) :
    (a.lane p).isEmpty = false ∧ ∀ q, (a.lane q).isEmpty = false → p.rank ≤ q.rank := by
  obtain ⟨rest, hcons⟩ := List.head?_eq_some_iff.mp h
  have hascending := hcons ▸ a.presentPriorities_ascending
  refine ⟨mem_presentPriorities.mp (hcons ▸ List.mem_cons_self), fun q hq => ?_⟩
  rcases List.mem_cons.mp (hcons ▸ mem_presentPriorities.mpr hq) with rfl | hq
  · exact Nat.le_refl _
  · exact (List.pairwise_cons.mp hascending).1 q hq

/-- If no priority is present, all lanes are empty. -/
theorem head?_presentPriorities_none (h : a.presentPriorities.head? = none) (q : Priority) :
    (a.lane q).isEmpty = true := by
  rw [← Bool.not_eq_false, ← mem_presentPriorities, List.head?_eq_none_iff.mp h]
  exact List.not_mem_nil

/-- The first of a lane leaves it, and takes its flag down. -/
theorem popLane?_of_cons {id : ConstraintId} {line : List ConstraintId}
    (h : (a.lane p).toList = id :: line) :
    ∃ rest, a.popLane? p = some (id, rest) ∧
      (∀ q, (rest.lane q).toList = if q = p then line else (a.lane q).toList) ∧
      ∀ other, rest.isWaiting other = if other = id then false else a.isWaiting other := by
  have hpop := (a.lane p).pop?_eq
  rw [h] at hpop
  obtain ⟨⟨first, remaining⟩, hlane, heq⟩ := Option.map_eq_some_iff.mp hpop
  obtain ⟨rfl, hline⟩ := Prod.mk.injEq .. ▸ heq
  refine ⟨_, by rw [popLane?, hlane], fun q => ?_, fun other => ?_⟩
  · rw [lane_flagged, lane_setLane]
    split
    · exact hline
    · rfl
  · exact isWaiting_setFlag _ a.waiting first other false rfl

/-- Whoever leaves is the earliest of the most urgent arrivals. -/
theorem Holds.pop (h : a.Holds priority l) :
    (a.presentPriorities.head? = none ∧ l = []) ∨
      ∃ p id rest, a.presentPriorities.head? = some p ∧ a.popLane? p = some (id, rest) ∧
        Arrivals.pop? priority l = some (id, l.erase id) ∧ rest.Holds priority (l.erase id) := by
  cases hhead : a.presentPriorities.head? with
  | none =>
      refine Or.inl ⟨rfl, List.eq_nil_iff_forall_not_mem.mpr fun id hid => ?_⟩
      have hlane := Lane.isEmpty_iff.mp (head?_presentPriorities_none hhead (priority id))
      rw [h.lanes] at hlane
      exact List.not_mem_nil (hlane ▸ Arrivals.mem_lane.mpr ⟨hid, rfl⟩)
  | some p =>
      obtain ⟨hp, hurgent⟩ := head?_presentPriorities hhead
      cases hline : (a.lane p).toList with
      | nil =>
          rw [Lane.isEmpty_iff.mpr hline] at hp
          cases hp
      | cons id line =>
          obtain ⟨rest, hpop, hlanes, hflags⟩ := popLane?_of_cons hline
          have harrivals : Arrivals.lane priority l p = id :: line := h.lanes p ▸ hline
          -- no lane before this one has anything in it, so its head has waited longest of the
          -- most urgent
          have hfirst : Arrivals.first? priority l = some id := by
            refine Arrivals.first?_eq harrivals fun other hother => hurgent _ ?_
            rw [← Bool.not_eq_true, Lane.isEmpty_iff, h.lanes]
            exact List.ne_nil_of_mem (Arrivals.mem_lane.mpr ⟨hother, rfl⟩)
          refine Or.inr ⟨p, id, rest, rfl, hpop, by rw [Arrivals.pop?, hfirst]; rfl,
            h.nodup.erase id, fun q => ?_, fun other => ?_⟩
          · rw [hlanes, Arrivals.lane_erase h.nodup harrivals, h.lanes]
          · rw [hflags, h.flags]
            by_cases hother : other = id
            · simp [hother, h.nodup.not_mem_erase]
            · simp [hother]

/-- A lane which nobody leaves is as before. -/
theorem lane_of_popLane? {rest : Agenda} {id : ConstraintId} (h : a.popLane? p = some (id, rest))
    {q : Priority} (hq : q ≠ p) : rest.lane q = a.lane q := by
  rw [popLane?] at h
  split at h
  · cases h
    rw [lane_flagged, lane_setLane, if_neg hq]
  · cases h

/-- What waits on the agenda waits in some lane. -/
theorem mem_toList {id : ConstraintId} : id ∈ a.toList ↔ ∃ p, id ∈ (a.lane p).toList := by
  simp only [toList, List.mem_append]
  constructor
  · rintro ((h | h) | h)
    · exact ⟨.high, h⟩
    · exact ⟨.medium, h⟩
    · exact ⟨.low, h⟩
  · rintro ⟨p, h⟩
    cases p with
    | high => exact Or.inl (Or.inl h)
    | medium => exact Or.inl (Or.inr h)
    | low => exact Or.inr h

/-- What waits on the agenda has arrived and not left. -/
theorem Holds.mem_toList (h : a.Holds priority l) {id : ConstraintId} : id ∈ a.toList ↔ id ∈ l := by
  rw [Agenda.mem_toList]
  simp only [h.lanes, Arrivals.mem_lane]
  exact ⟨fun ⟨_, hid, _⟩ => hid, fun hid => ⟨_, hid, rfl⟩⟩

/-- The agenda is empty exactly if everybody who has arrived has left. -/
theorem Holds.isEmpty (h : a.Holds priority l) : a.isEmpty = l.isEmpty := by
  rw [Bool.eq_iff_iff, Agenda.isEmpty_iff, List.isEmpty_iff, List.eq_nil_iff_forall_not_mem,
    List.eq_nil_iff_forall_not_mem]
  exact forall_congr' fun id => not_congr h.mem_toList

/-- **THE AGENDA** does what the list of arrivals does. -/
theorem follows_arrivals :
    discipline.Follows (Arrivals.discipline priority) priority (Holds priority) where
  initial := holds_empty
  enqueue h id := h.enqueue id
  pop_none {a l} h hpop := by
    show a.pop? = none
    rcases h.pop with ⟨hhead, _⟩ | ⟨p, id, rest, _, _, harrivals, _⟩
    · rw [pop?_eq, hhead]
      rfl
    · cases harrivals.symm.trans hpop
  pop_some {a l id l'} h hpop := by
    show ∃ rest, a.pop? = some (id, rest) ∧ _
    rcases h.pop with ⟨_, rfl⟩ | ⟨p, id', rest, hhead, hlane, harrivals, hrest⟩
    · cases hpop
    · cases harrivals.symm.trans hpop
      exact ⟨rest, by rw [pop?_eq, hhead]; exact hlane, hrest⟩
  clear _ := holds_empty
  isEmpty h := h.isEmpty
  isWaiting h id := h.flags id

end Agenda

/-! ## The records of a queue -/

namespace Queue

variable {priority : ConstraintId → Priority} {q : Queue} {l : List ConstraintId} {p : Priority}

/-- The queue, with its own way to clear. -/
def discipline : Discipline Queue where
  initial := empty
  enqueue := enqueue
  pop? := pop?
  clear := clear
  isEmpty := isEmpty
  isWaiting q := q.isWaiting

/-- The lanes hold the arrivals, the counter counts them, and the heap has every
    priority with an arrival once. -/
structure Holds (priority : ConstraintId → Priority) (q : Queue) (l : List ConstraintId) :
    Prop where
  lanes : q.toAgenda.Holds priority l
  count : q.count = l.length
  present : ∀ p, q.present.count p = if (q.lane p).isEmpty then 0 else 1

theorem holds_empty : Holds priority empty [] :=
  ⟨Agenda.holds_empty, rfl, fun p => by cases p <;> rfl⟩

/-- The heap knows the first lane that is not empty. -/
theorem Holds.top?_eq (h : q.Holds priority l) :
    top? q.present = q.presentPriorities.head? := by
  rw [Agenda.presentPriorities, List.head?_filter, top?]
  refine congrArg (fun f => List.find? f [Priority.high, .medium, .low]) (funext fun p => ?_)
  have hcount := h.present p
  rw [Bool.eq_iff_iff, decide_eq_true_eq, ← List.count_pos_iff, hcount]
  cases (q.lane p).isEmpty <;> simp

/-- Whoever is enqueued arrives, unless waiting already. -/
theorem Holds.enqueue (h : q.Holds priority l) (id : ConstraintId) :
    (q.enqueue id (priority id)).Holds priority (Arrivals.enqueue l id) := by
  by_cases hid : id ∈ l
  · have hwaits : q.isWaiting id = true := (h.lanes.flags id).trans (decide_eq_true hid)
    rw [Queue.enqueue, if_pos hwaits, Arrivals.enqueue, if_pos hid]
    exact h
  · have hwaits : ¬ q.isWaiting id = true := by simp [h.lanes.flags, hid]
    have hlane := Agenda.lane_enqueue hwaits (priority id)
    rw [Queue.enqueue, if_neg hwaits]
    refine ⟨h.lanes.enqueue id, ?_, fun p => ?_⟩
    · rw [Arrivals.enqueue, if_neg hid, List.length_append, h.count]
      rfl
    · simp only [hlane]
      have hcount := h.present p
      by_cases hp : p = priority id
      · subst hp
        have hpush : ((q.lane (priority id)).push id).isEmpty = false := by
          simp [Lane.isEmpty, Lane.push]
        rw [if_pos rfl, hpush]
        cases hempty : (q.lane (priority id)).isEmpty <;> simp_all
      · rw [if_neg hp, ← hcount]
        split
        · exact List.count_cons_of_ne (Ne.symm hp)
        · rfl

/-- The queue gives up the constraint the list gives up. -/
theorem Holds.pop (h : q.Holds priority l) :
    (q.pop? = none ∧ Arrivals.pop? priority l = none) ∨
      ∃ id rest, q.pop? = some (id, rest) ∧ Arrivals.pop? priority l = some (id, l.erase id) ∧
        rest.Holds priority (l.erase id) := by
  rcases h.lanes.pop with ⟨hhead, rfl⟩ | ⟨p, id, rest, hhead, hlane, harrivals, hrest⟩
  · refine Or.inl ⟨?_, rfl⟩
    rw [Queue.pop?, h.top?_eq, hhead]
  · refine Or.inr ⟨id, _, by rw [Queue.pop?, h.top?_eq, hhead]; simp only [hlane]; rfl,
      harrivals, hrest, ?_, fun r => ?_⟩
    · have hid : id ∈ l := by
        obtain ⟨_, hfirst, heq⟩ := Option.map_eq_some_iff.mp harrivals
        cases heq
        exact List.mem_of_find?_eq_some hfirst
      simp only
      rw [List.length_erase_of_mem hid, h.count]
    · -- the priority leaves the heap with the last of its lane
      have hpresent := h.present p
      rw [(Agenda.head?_presentPriorities hhead).1] at hpresent
      have hcount := h.present r
      by_cases hr : r = p
      · subst hr
        cases hempty : (rest.lane r).isEmpty <;> simp_all
      · simp only [Agenda.lane_of_popLane? hlane hr, ← hcount]
        split
        · exact List.count_erase_of_ne hr
        · rfl

/-- Emptying several lanes leaves the other ones alone. -/
theorem lane_foldl_setLane (ps : List Priority) (a : Agenda) (p : Priority) :
    (ps.foldl (fun a p => a.setLane p Lane.empty) a).lane p
      = if p ∈ ps then Lane.empty else a.lane p := by
  induction ps generalizing a with
  | nil => rfl
  | cons first ps ih =>
      rw [List.foldl_cons, ih, Agenda.lane_setLane]
      by_cases hfirst : p = first
      · simp [hfirst]
      · simp [hfirst]

/-- Clearing what the heap knows of clears everything. -/
theorem Holds.clear (h : q.Holds priority l) : q.clear.Holds priority [] := by
  have hlane : ∀ p, (q.clear.lane p).toList = [] := by
    intro p
    -- only the lanes on the heap are emptied; the others are empty already
    have hcleared : q.clear.lane p = if p ∈ q.present then Lane.empty else q.lane p := by
      rw [← lane_foldl_setLane]
      cases p <;> rfl
    rw [hcleared]
    split
    · rfl
    · rename_i hp
      have hcount := h.present p
      rw [List.count_eq_zero_of_not_mem hp] at hcount
      cases hempty : (q.lane p).isEmpty with
      | true => exact Lane.isEmpty_iff.mp hempty
      | false => simp [hempty] at hcount
  refine ⟨⟨List.nodup_nil, hlane, fun id => ?_⟩, rfl, fun p => ?_⟩
  · simp only [Agenda.isWaiting, Queue.clear, Array.getElem?_map, List.not_mem_nil, decide_false]
    cases q.waiting[id.index]? <;> rfl
  · rw [if_pos (Lane.isEmpty_iff.mpr (hlane p))]
    rfl

/-- **THE QUEUE** does what the list of arrivals does. -/
theorem follows_arrivals :
    discipline.Follows (Arrivals.discipline priority) priority (Holds priority) where
  initial := holds_empty
  enqueue h id := h.enqueue id
  pop_none h hpop := by
    rcases h.pop with ⟨hnone, _⟩ | ⟨id, rest, _, harrivals, _⟩
    · exact hnone
    · cases harrivals.symm.trans hpop
  pop_some h hpop := by
    rcases h.pop with ⟨_, harrivals⟩ | ⟨id', rest, hsome, harrivals, hrest⟩
    · cases harrivals.symm.trans hpop
    · cases harrivals.symm.trans hpop
      exact ⟨rest, hsome, hrest⟩
  clear h := h.clear
  isEmpty {q l} h := by
    show (q.count == 0) = l.isEmpty
    rw [h.count, Bool.eq_iff_iff, beq_iff_eq, List.isEmpty_iff, List.length_eq_zero_iff]
  isWaiting h id := h.lanes.flags id

/-- **FIRST COME, FIRST SERVED, THE MOST URGENT FIRST**: after every history of
    arrivals, departures, clearings and questions, in which every constraint
    arrives at a priority of its own, the queue, the agenda and the list of
    arrivals have given the same answers.  Whoever is in the list waits in
    the lane of its priority, once, and has its flag up; the counter counts
    the list, and the heap has every priority with a constraint once. -/
theorem queue_serves_in_order (priority : ConstraintId → Priority)
    (requests : List Discipline.Request) :
    ∃ answers q a l,
      discipline.run priority Queue.empty requests = (answers, q) ∧
      Agenda.discipline.run priority Agenda.empty requests = (answers, a) ∧
      (Arrivals.discipline priority).run priority [] requests = (answers, l) ∧
      l.Nodup ∧
      (∀ id p, (q.lane p).toList.count id = if id ∈ l ∧ priority id = p then 1 else 0) ∧
      (∀ p, (q.lane p).toList = Arrivals.lane priority l p ∧ (a.lane p).toList = (q.lane p).toList) ∧
      (∀ id, q.isWaiting id = decide (id ∈ l)) ∧
      q.count = l.length ∧
      ∀ p, q.present.count p = if (q.lane p).isEmpty then 0 else 1 := by
  obtain ⟨hqueue, hq⟩ := (@follows_arrivals priority).run holds_empty requests
  obtain ⟨hagenda, ha⟩ := (@Agenda.follows_arrivals priority).run Agenda.holds_empty requests
  refine ⟨_, _, _, _, rfl, Prod.ext (hagenda.trans hqueue.symm) rfl, Prod.ext hqueue.symm rfl,
    hq.lanes.nodup, fun id p => ?_, fun p => ⟨hq.lanes.lanes p, ?_⟩, hq.lanes.flags, hq.count,
    hq.present⟩
  · rw [hq.lanes.lanes]
    exact (List.Nodup.count (hq.lanes.nodup.filter _)).trans (if_congr Arrivals.mem_lane rfl rfl)
  · rw [ha.lanes, hq.lanes.lanes]

example :
    (discipline.run (fun id => if id.index = 1 then .low else .high) Queue.empty
      [.enqueue ⟨1⟩, .enqueue ⟨3⟩, .enqueue ⟨4⟩, .pop, .clear, .isEmpty, .pop]).1
      = [.done, .done, .done, .departed (some ⟨3⟩), .done, .told true, .departed none] := by
  decide

end Queue

end ConstraintSolver
