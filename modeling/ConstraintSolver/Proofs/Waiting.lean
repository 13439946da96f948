import Mathlib.Data.List.Perm.Basic
import Mathlib.Data.List.Nodup
import ConstraintSolver.Agenda

/-! # Waiting constraints — the agenda as a list without repetitions

    The lanes of the agenda hold every waiting constraint once, and the flags
    say which ones wait (`Consistent`).  For a consistent agenda, putting a
    constraint on it and taking one off are what they are for a list. -/

namespace ConstraintSolver

namespace Agenda

/-- The waiting constraints, the most urgent first. -/
def toList (a : Agenda) : List ConstraintId := a.high.toList ++ a.medium.toList ++ a.low.toList

/-- Every waiting constraint is in one lane once, and the flags agree. -/
structure Consistent (a : Agenda) : Prop where
  nodup : a.toList.Nodup
  flags : ∀ id, a.isWaiting id = true ↔ id ∈ a.toList

theorem toList_empty : empty.toList = [] := rfl

theorem consistent_empty : empty.Consistent := by
  refine ⟨by simp [toList_empty], fun id => ?_⟩
  simp [isWaiting, empty, toList, Lane.empty, Lane.toList]

/-- An agenda is empty exactly if nothing waits on it. -/
theorem isEmpty_iff (a : Agenda) : a.isEmpty = true ↔ a.toList = [] := by
  rw [← List.length_eq_zero_iff]
  simp only [isEmpty, size, beq_iff_eq, toList, List.length_append, Lane.length_toList]

/-- Setting a flag leaves the other flags alone. -/
theorem isWaiting_setFlag (a : Agenda) (flags : Array Bool) (id other : ConstraintId)
    (waits : Bool) (h : a.waiting = setFlag flags id.index waits) :
    a.isWaiting other =
      if other = id then waits else (flags[other.index]?).getD false := by
  rw [isWaiting, h, getElem?_setFlag]
  by_cases hid : other = id
  · rw [if_pos hid, if_pos (hid ▸ rfl)]
  · rw [if_neg hid, if_neg fun hi => hid ?_]
    cases id
    cases other
    exact congrArg ConstraintId.mk hi

/-! ## Arriving -/

/-- What is pushed on a lane comes on the list, besides what is there. -/
theorem toList_push (a : Agenda) (flags : Array Bool) (id : ConstraintId) (p : Priority) :
    (setLane { a with waiting := flags } p ((a.lane p).push id)).toList.Perm (id :: a.toList) := by
  have hmove : ∀ l r : List ConstraintId, (l ++ id :: r).Perm (id :: (l ++ r)) :=
    fun l r => List.perm_middle
  cases p with
  | high =>
      simp only [toList, setLane, lane, Lane.toList_push, List.append_assoc, List.singleton_append]
      exact hmove _ _
  | medium =>
      simp only [toList, setLane, lane, Lane.toList_push, List.append_assoc, List.singleton_append]
      rw [← List.append_assoc, ← List.append_assoc]
      exact hmove _ _
  | low =>
      simp only [toList, setLane, lane, Lane.toList_push, ← List.append_assoc]
      exact (hmove _ []).trans (by rw [List.append_nil])

/-- A constraint that waits is not put on the agenda a second time. -/
theorem enqueue_of_waiting {a : Agenda} {id : ConstraintId} (h : a.isWaiting id = true)
    (p : Priority) : a.enqueue id p = a := by
  rw [enqueue, if_pos h]

/-- A constraint that does not wait comes on the agenda once. -/
theorem toList_enqueue {a : Agenda} (ha : a.Consistent) {id : ConstraintId} (h : id ∉ a.toList)
    (p : Priority) : (a.enqueue id p).toList.Perm (id :: a.toList) := by
  rw [← ha.flags] at h
  rw [enqueue, if_neg h]
  exact toList_push a _ id p

/-- After a constraint has been put on the agenda, it waits besides the others. -/
theorem mem_enqueue {a : Agenda} (ha : a.Consistent) (id : ConstraintId) (p : Priority)
    {other : ConstraintId} :
    other ∈ (a.enqueue id p).toList ↔ other = id ∨ other ∈ a.toList := by
  by_cases h : id ∈ a.toList
  · rw [enqueue_of_waiting ((ha.flags id).mpr h)]
    exact ⟨Or.inr, fun hm => hm.elim (fun heq => heq ▸ h) fun hm => hm⟩
  · rw [(toList_enqueue ha h p).mem_iff, List.mem_cons]

theorem waiting_setLane (a : Agenda) (p : Priority) (l : Lane) :
    (a.setLane p l).waiting = a.waiting := by
  cases p <;> rfl

/-- **ARRIVAL** keeps the agenda consistent. -/
theorem Consistent.enqueue {a : Agenda} (ha : a.Consistent) (id : ConstraintId) (p : Priority) :
    (a.enqueue id p).Consistent := by
  by_cases h : id ∈ a.toList
  · rwa [enqueue_of_waiting ((ha.flags id).mpr h)]
  · refine ⟨(toList_enqueue ha h p).nodup_iff.mpr (List.nodup_cons.mpr ⟨h, ha.nodup⟩),
      fun other => ?_⟩
    rw [mem_enqueue ha]
    -- only the flag of the constraint which arrives is set
    have hflag : (a.enqueue id p).waiting = setFlag a.waiting id.index true := by
      rw [← ha.flags] at h
      rw [Agenda.enqueue, if_neg h, waiting_setLane]
    rw [isWaiting_setFlag _ _ _ _ _ hflag]
    split
    · rename_i heq
      simp [heq]
    · rename_i hne
      simp only [hne, false_or]
      exact ha.flags other

/-! ## Leaving -/

/-- A constraint that is popped leaves the list, and its flag is taken down. -/
theorem toList_popLane {a rest : Agenda} {p : Priority} {id : ConstraintId}
    (h : a.popLane? p = some (id, rest)) :
    a.toList.Perm (id :: rest.toList) ∧ rest.waiting = setFlag a.waiting id.index false := by
  rw [popLane?] at h
  split at h
  · rename_i id' l hpop
    cases h
    -- the constraint that is taken is the head of its lane
    have hlist : (a.lane p).toList = id :: l.toList := by
      have hp := (a.lane p).pop?_eq
      rw [hpop] at hp
      cases hl : (a.lane p).toList with
      | nil => simp [hl] at hp
      | cons first others =>
          simp only [hl, Option.map_some, Option.some.injEq, Prod.mk.injEq] at hp
          rw [hp.1, hp.2]
    refine ⟨?_, rfl⟩
    cases p with
    | high =>
        simp only [lane] at hlist
        simp only [toList, setLane, hlist, List.cons_append]
        exact List.Perm.refl _
    | medium =>
        simp only [lane] at hlist
        simp only [toList, setLane, hlist, List.append_assoc, List.cons_append]
        exact List.perm_middle
    | low =>
        simp only [lane] at hlist
        simp only [toList, setLane, hlist]
        exact List.perm_middle
  · cases h

/-- A lane from which nothing can be popped is empty. -/
theorem toList_lane_of_popLane {a : Agenda} {p : Priority} (h : a.popLane? p = none) :
    (a.lane p).toList = [] := by
  rw [popLane?] at h
  split at h
  · cases h
  · rename_i hpop
    have hp := (a.lane p).pop?_eq
    rw [hpop] at hp
    cases hl : (a.lane p).toList with
    | nil => rfl
    | cons first others => simp [hl] at hp

/-- An agenda is empty, or gives away the first of a lane. -/
theorem pop?_cases (a : Agenda) :
    (a.pop? = none ∧ a.toList = []) ∨
      ∃ p id rest, a.pop? = some (id, rest) ∧ a.popLane? p = some (id, rest) := by
  rw [pop?]
  cases hh : a.popLane? .high with
  | some r => exact Or.inr ⟨.high, r.1, r.2, rfl, hh⟩
  | none =>
      cases hm : a.popLane? .medium with
      | some r => exact Or.inr ⟨.medium, r.1, r.2, rfl, hm⟩
      | none =>
          cases hl : a.popLane? .low with
          | some r => exact Or.inr ⟨.low, r.1, r.2, rfl, hl⟩
          | none =>
              -- all three lanes are empty
              have h1 := toList_lane_of_popLane hh
              have h2 := toList_lane_of_popLane hm
              have h3 := toList_lane_of_popLane hl
              simp only [lane] at h1 h2 h3
              exact Or.inl ⟨rfl, by simp [toList, h1, h2, h3]⟩

/-- An agenda from which nothing can be popped is empty. -/
theorem toList_of_pop?_none {a : Agenda} (h : a.pop? = none) : a.toList = [] := by
  rcases a.pop?_cases with ⟨_, hl⟩ | ⟨_, _, _, hs, _⟩
  · exact hl
  · rw [h] at hs
    cases hs

/-- **DEPARTURE** keeps the agenda consistent, and exactly one constraint
    leaves. -/
theorem Consistent.pop {a rest : Agenda} {id : ConstraintId} (ha : a.Consistent)
    (h : a.pop? = some (id, rest)) : rest.Consistent ∧ a.toList.Perm (id :: rest.toList) := by
  rcases a.pop?_cases with ⟨hn, _⟩ | ⟨p, id', rest', hs, hlane⟩
  · rw [h] at hn
    cases hn
  · rw [h] at hs
    cases hs
    obtain ⟨hperm, hflag⟩ := toList_popLane hlane
    have hnodup := List.nodup_cons.mp (hperm.nodup_iff.mp ha.nodup)
    refine ⟨⟨hnodup.2, fun other => ?_⟩, hperm⟩
    rw [isWaiting_setFlag _ _ _ _ _ hflag]
    split
    · rename_i heq
      subst heq
      simp [hnodup.1]
    · rename_i hne
      refine (ha.flags other).trans ?_
      rw [hperm.mem_iff, List.mem_cons, or_iff_right hne]

/-! ## Representation -/

/-- The same constraints wait in the same lanes; the flags may be kept in tables of
    different sizes. -/
structure Same (a b : Agenda) : Prop where
  high : b.high = a.high
  medium : b.medium = a.medium
  low : b.low = a.low
  waiting : ∀ id, b.isWaiting id = a.isWaiting id

namespace Same

variable {a b : Agenda}

theorem refl (a : Agenda) : a.Same a := ⟨rfl, rfl, rfl, fun _ => rfl⟩

theorem lane (h : a.Same b) (p : Priority) : b.lane p = a.lane p := by
  cases p with
  | high => exact h.high
  | medium => exact h.medium
  | low => exact h.low

theorem toList (h : a.Same b) : b.toList = a.toList := by
  rw [Agenda.toList, Agenda.toList, h.high, h.medium, h.low]

/-- Changing a lane and a flag in both keeps them the same. -/
theorem change (h : a.Same b) {a' b' : Agenda} (p : Priority) (l : Lane) (id : ConstraintId)
    (waits : Bool)
    (ha : a' = { a.setLane p l with waiting := setFlag a.waiting id.index waits })
    (hb : b' = { b.setLane p l with waiting := setFlag b.waiting id.index waits }) :
    a'.Same b' := by
  have hwaiting : ∀ other, b'.isWaiting other = a'.isWaiting other := by
    intro other
    rw [isWaiting_setFlag a' a.waiting id other waits (ha ▸ rfl),
      isWaiting_setFlag b' b.waiting id other waits (hb ▸ rfl)]
    split
    · rfl
    · exact h.waiting other
  subst ha hb
  cases p with
  | high => exact ⟨rfl, h.medium, h.low, hwaiting⟩
  | medium => exact ⟨h.high, rfl, h.low, hwaiting⟩
  | low => exact ⟨h.high, h.medium, rfl, hwaiting⟩

/-- Agendas which are the same still are after a constraint has been put on both. -/
theorem enqueue (h : a.Same b) (id : ConstraintId) (p : Priority) :
    (a.enqueue id p).Same (b.enqueue id p) := by
  rw [Agenda.enqueue, Agenda.enqueue, h.waiting]
  split
  · exact h
  · rw [h.lane]
    exact h.change p ((a.lane p).push id) id true (by cases p <;> rfl) (by cases p <;> rfl)

/-- Agendas which are the same have the same empty lanes. -/
theorem popLane_none (h : a.Same b) {p : Priority} (hpop : a.popLane? p = none) :
    b.popLane? p = none := by
  rw [popLane?] at hpop ⊢
  rw [h.lane]
  split at hpop
  · cases hpop
  · rfl

/-- Agendas which are the same give away the same constraint of a lane, and still are the same. -/
theorem popLane_some (h : a.Same b) {p : Priority} {id : ConstraintId} {rest : Agenda}
    (hpop : a.popLane? p = some (id, rest)) :
    ∃ rest', b.popLane? p = some (id, rest') ∧ rest.Same rest' := by
  rw [popLane?] at hpop ⊢
  rw [h.lane]
  split at hpop
  · cases hpop
    exact ⟨_, rfl, h.change p _ id false rfl rfl⟩
  · cases hpop

/-- The same constraint leaves both. -/
theorem pop_some (h : a.Same b) {id : ConstraintId} {rest : Agenda}
    (hpop : a.pop? = some (id, rest)) : ∃ rest', b.pop? = some (id, rest') ∧ rest.Same rest' := by
  rw [pop?] at hpop ⊢
  -- the first lane with anything in it is the same for both
  cases hhigh : a.popLane? .high with
  | some r =>
      obtain ⟨rest', heq, hsame⟩ := h.popLane_some hhigh
      rw [hhigh] at hpop
      cases hpop
      rw [heq]
      exact ⟨rest', rfl, hsame⟩
  | none =>
      rw [hhigh] at hpop
      rw [h.popLane_none hhigh]
      cases hmedium : a.popLane? .medium with
      | some r =>
          obtain ⟨rest', heq, hsame⟩ := h.popLane_some hmedium
          rw [hmedium] at hpop
          cases hpop
          rw [heq]
          exact ⟨rest', rfl, hsame⟩
      | none =>
          rw [hmedium] at hpop
          rw [h.popLane_none hmedium]
          exact h.popLane_some hpop

/-- Agendas which are the same are empty at the same time. -/
theorem pop_none (h : a.Same b) (hpop : a.pop? = none) : b.pop? = none := by
  rcases b.pop?_cases with ⟨heq, _⟩ | ⟨p, id, rest, _, hlane⟩
  · exact heq
  · have hperm := (toList_popLane hlane).1
    rw [h.toList, toList_of_pop?_none hpop] at hperm
    cases List.nil_perm.mp hperm

end Same

/-- Where nothing waits, it is as if nothing had ever waited. -/
theorem Consistent.same_empty {a : Agenda} (h : a.Consistent) (hidle : a.toList = []) :
    a.Same empty := by
  have hlane : ∀ l : Lane, l.toList = [] → Lane.empty = l := by
    intro l hl
    rw [Lane.toList, List.append_eq_nil_iff, List.reverse_eq_nil_iff] at hl
    cases l
    cases hl.1
    cases hl.2
    rfl
  have hflag : ∀ id, a.isWaiting id = false := by
    intro id
    rw [← Bool.not_eq_true, h.flags, hidle]
    exact List.not_mem_nil
  rw [toList, List.append_eq_nil_iff, List.append_eq_nil_iff] at hidle
  obtain ⟨⟨hhigh, hmedium⟩, hlow⟩ := hidle
  exact ⟨hlane _ hhigh, hlane _ hmedium, hlane _ hlow, fun id => (hflag id).symm⟩

end Agenda

end ConstraintSolver
