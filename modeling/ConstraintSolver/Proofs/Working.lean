import Mathlib.Logic.Relation
import Mathlib.Order.WellFounded
import ConstraintSolver.Proofs.Alike

/-! # Working — why propagation ends

    Between two looks at the store, the work does one of four things
    (`Work.Acts`): it takes a constraint from the agenda, passes over an id
    without a constraint, runs the constraint at hand to no effect and lets go
    of it, or runs it to some effect, wakes the other watchers and keeps it.
    It ends when nothing waits or a run fails (`Work.Ends`).

    A run to some effect leaves fewer values; every other act leaves the
    domains as they are, and either shortens the agenda or lets go of the
    constraint at hand (`Work.Acts.advances`).  Values and agenda in this
    order therefore admit no endless work, whatever waits at the beginning.
    Waking puts every constraint on the agenda at most once, so that each
    value that is lost pays for the runs which its loss may cause; this bounds
    the number of runs (`Work.Acts.propagations`). -/

namespace ConstraintSolver

open Relation

namespace Domains

/-- The cells hold the domains of all variables, in order. -/
theorem map_domain_cells (D : Domains) :
    D.cells.toList.map Cell.domain = D.allVariables.map D.get := by
  rw [allVariables, List.map_map]
  refine List.ext_getElem (by simp) fun i hi hi' => ?_
  have hlt : i < D.cells.size := by simpa using hi
  simp [get, Owns, Array.getElem?_eq_getElem hlt]

theorem sizeOfCells_congr {cells cells' : List Cell}
    (h : cells.map Cell.domain = cells'.map Cell.domain) :
    sizeOfCells cells = sizeOfCells cells' := by
  induction cells generalizing cells' with
  | nil => rw [List.map_eq_nil_iff.mp h.symm]
  | cons cell cells ih =>
      obtain ⟨cell', rest, rfl, hcell, hrest⟩ := List.map_eq_cons_iff.mp h.symm
      rw [sizeOfCells, sizeOfCells, hcell, ih hrest.symm]

/-- The same variables with the same domains have as many values left together. -/
theorem totalSize_congr {D E : Domains} (hvariables : D.allVariables = E.allVariables)
    (hget : D.get = E.get) : D.totalSize = E.totalSize := by
  apply sizeOfCells_congr
  rw [map_domain_cells, map_domain_cells, hvariables, hget]

end Domains

namespace Store

/-! ## A run -/

/-- **A RUN** never adds a value, whether it fails or not. -/
theorem shrinks_runOnce (s : Store) (id : ConstraintId) (c : Constraint) (v : Variable) :
    (s.runOnce id c).2.domain v ≤ s.domain v := (evolves_runOnce s id c).shrinks v

/-- A run is counted, and keeps what waits. -/
theorem runOnce_keeps {s t : Store} {id : ConstraintId} {c : Constraint}
    {result : Except Inconsistency Unit} (h : s.runOnce id c = (result, t)) :
    t.agenda = s.agenda ∧ t.constraintCount = s.constraintCount ∧
      t.propagations = s.propagations + 1 := by
  rw [runOnce_eq] at h
  cases h
  exact ⟨rfl, rfl, rfl⟩

/-- A run that prunes nothing leaves the domains as they are. -/
theorem domain_of_quiet {s t : Store} {id : ConstraintId} {c : Constraint}
    (h : s.runOnce id c = (.ok (), t)) (hq : t.domains.changes = []) :
    t.domain = s.domain ∧ t.domains.totalSize = s.domains.totalSize := by
  have hlists := lists_runOnce s id c
  have hev := evolves_runOnce s id c
  rw [h] at hlists hev
  have hget : t.domains.get = s.domains.get := by
    funext v
    exact (get_of_quiet hlists (by simp [hq])).symm
  exact ⟨hget, Domains.totalSize_congr hev.allVariables hget⟩

/-! ## The acts of the work -/

/-- A store at work, and the constraint at hand. -/
structure Work where
  store : Store
  current : Option ConstraintId

namespace Work

/-- What is done next, as long as the work goes on. -/
inductive Acts : Work → Work → Prop
  /-- The first constraint of the agenda is taken to hand. -/
  | popped {s : Store} {id : ConstraintId} {rest : Agenda}
      (first : s.agenda.pop? = some (id, rest)) :
      Acts ⟨s, none⟩ ⟨{ s with agenda := rest }, some id⟩
  /-- There is no such constraint. -/
  | absent {s : Store} {id : ConstraintId} (unknown : s.constraint? id = none) :
      Acts ⟨s, some id⟩ ⟨s, none⟩
  /-- The constraint is run, and nothing is pruned. -/
  | rested {s t : Store} {id : ConstraintId} {c : Constraint} (known : s.constraint? id = some c)
      (run : s.runOnce id c = (.ok (), t)) (quiet : t.domains.changes = []) :
      Acts ⟨s, some id⟩ ⟨t, none⟩
  /-- The constraint is run and will be run again, because something was pruned. -/
  | pruned {s t : Store} {id : ConstraintId} {c : Constraint} (known : s.constraint? id = some c)
      (run : s.runOnce id c = (.ok (), t)) (loud : t.domains.changes ≠ []) :
      Acts ⟨s, some id⟩ ⟨t.wakeChanged (some id), some id⟩

/-- The work is over, with this outcome. -/
inductive Ends : Work → Except Inconsistency Unit × Store → Prop
  | finished {s : Store} (nobody : s.agenda.pop? = none) : Ends ⟨s, none⟩ (.ok (), s)
  | failed {s t : Store} {id : ConstraintId} {c : Constraint} {why : Inconsistency}
      (known : s.constraint? id = some c) (run : s.runOnce id c = (.error why, t)) :
      Ends ⟨s, some id⟩ (.error why, t)

/-- The values left to all variables together. -/
def values (w : Work) : Nat := w.store.domains.totalSize

/-- What waits, where the constraint at hand counts for less than one on the agenda. -/
def pending (w : Work) : Nat := 2 * w.store.agenda.size + w.current.isSome.toNat

/-- How many runs there can still be: every value that is lost may wake all
    constraints. -/
def allowance (w : Work) : Nat :=
  w.values * (w.store.constraintCount + 1) + w.store.agenda.size + w.current.isSome.toNat

/-- The second is further: values have been lost, or else less waits and the
    domains are the same. -/
def Advances (w w' : Work) : Prop :=
  w'.values < w.values ∨ (w'.store.domain = w.store.domain ∧ w'.values = w.values ∧
    w'.pending < w.pending)

variable {w w' w'' : Work} {s t : Store}

theorem Advances.trans (h : w.Advances w') (h' : w'.Advances w'') : w.Advances w'' := by
  rcases h with hlt | ⟨hdomain, hvalues, hpending⟩
  · rcases h' with hlt' | ⟨-, hvalues', -⟩
    · exact Or.inl (hlt'.trans hlt)
    · exact Or.inl (hvalues' ▸ hlt)
  · rcases h' with hlt' | ⟨hdomain', hvalues', hpending'⟩
    · exact Or.inl (hvalues ▸ hlt')
    · exact Or.inr ⟨hdomain'.trans hdomain, hvalues'.trans hvalues, hpending'.trans hpending⟩

/-- **EVERY ACT ADVANCES** the work. -/
theorem Acts.advances (h : w.Acts w') : w.Advances w' := by
  cases h with
  | popped first =>
      have hsize := Agenda.size_of_pop? first
      refine Or.inr ⟨rfl, rfl, ?_⟩
      simp only [pending, Option.isSome_some, Option.isSome_none, Bool.toNat_true,
        Bool.toNat_false]
      omega
  | absent unknown => exact Or.inr ⟨rfl, rfl, by simp [pending]⟩
  | rested known run quiet =>
      obtain ⟨hdomain, hvalues⟩ := domain_of_quiet run quiet
      exact Or.inr ⟨hdomain, hvalues, by simp [pending, (runOnce_keeps run).1]⟩
  | pruned known run loud => exact Or.inl ((totalSize_runOnce run).2.resolve_left loud)

/-- There is no endless work: values are lost before what waits can grow. -/
theorem acts_wellFounded : WellFounded fun w' w : Work => w.Acts w' := by
  have hlex : WellFounded (Prod.Lex (· < ·) (· < ·) : Nat × Nat → Nat × Nat → Prop) :=
    WellFounded.prod_lex wellFounded_lt wellFounded_lt
  refine Subrelation.wf ?_ (InvImage.wf (fun w : Work => (w.values, w.pending)) hlex)
  intro w' w h
  rcases h.advances with hlt | ⟨-, hvalues, hpending⟩
  · exact Prod.Lex.left _ _ hlt
  · change Prod.Lex _ _ (w'.values, w'.pending) (w.values, w.pending)
    rw [hvalues]
    exact Prod.Lex.right _ hpending

/-- Runs are paid for in advance. -/
theorem Acts.propagations (h : w.Acts w') :
    w'.store.propagations + w'.allowance ≤ w.store.propagations + w.allowance := by
  cases h with
  | @popped s id rest first =>
      have hsize := Agenda.size_of_pop? first
      change s.propagations + (s.domains.totalSize * (s.constraintCount + 1) + rest.size + 1) ≤
        s.propagations + (s.domains.totalSize * (s.constraintCount + 1) + s.agenda.size + 0)
      omega
  | absent unknown => exact Nat.add_le_add_left (Nat.le_add_right _ _) _
  | @rested s t id c known run quiet =>
      obtain ⟨hagenda, hcount, hruns⟩ := runOnce_keeps run
      have hvalues := (domain_of_quiet run quiet).2
      change t.propagations + (t.domains.totalSize * (t.constraintCount + 1) + t.agenda.size + 0) ≤
        s.propagations + (s.domains.totalSize * (s.constraintCount + 1) + s.agenda.size + 1)
      rw [hagenda, hcount, hruns, hvalues]
      omega
  | @pruned s t id c known run loud =>
      obtain ⟨hagenda, hcount, hruns⟩ := runOnce_keeps run
      have hwoken : (t.wakeChanged (some id)).agenda.size ≤ t.agenda.size + t.constraintCount :=
        size_wake t _ _
      -- the value that was lost pays for this run and for those of the woken constraints
      have hlost : (t.domains.totalSize + 1) * (s.constraintCount + 1) ≤
          s.domains.totalSize * (s.constraintCount + 1) :=
        Nat.mul_le_mul_right _ ((totalSize_runOnce run).2.resolve_left loud)
      rw [Nat.add_mul, Nat.one_mul] at hlost
      change t.propagations + (t.domains.totalSize * (t.constraintCount + 1) +
          (t.wakeChanged (some id)).agenda.size + 1) ≤
        s.propagations + (s.domains.totalSize * (s.constraintCount + 1) + s.agenda.size + 1)
      rw [hagenda, hcount] at hwoken
      rw [hcount, hruns]
      omega

theorem Ends.propagations {r : Except Inconsistency Unit × Store} (h : w.Ends r) :
    r.2.propagations ≤ w.store.propagations + w.allowance := by
  cases h with
  | finished nobody => exact Nat.le_add_right _ _
  | failed known run =>
      rw [(runOnce_keeps run).2.2]
      exact Nat.add_le_add_left (Nat.le_add_left 1 _) _

/-- The work goes on or is over. -/
theorem acts_or_ends (w : Work) : (∃ w', w.Acts w') ∨ ∃ r, w.Ends r := by
  obtain ⟨s, current⟩ := w
  cases current with
  | none =>
      cases hpop : s.agenda.pop? with
      | none => exact Or.inr ⟨_, .finished hpop⟩
      | some r => exact Or.inl ⟨_, .popped hpop⟩
  | some id =>
      cases hc : s.constraint? id with
      | none => exact Or.inl ⟨_, .absent hc⟩
      | some c =>
          cases hrun : s.runOnce id c with
          | mk result t =>
              cases result with
              | error why => exact Or.inr ⟨_, .failed hc hrun⟩
              | ok _ =>
                  by_cases hquiet : t.domains.changes = []
                  · exact Or.inl ⟨_, .rested hc hrun hquiet⟩
                  · exact Or.inl ⟨_, .pruned hc hrun hquiet⟩

/-- The work does what it does next, -/
theorem Acts.work_eq (h : w.Acts w') :
    w.store.work w.current = w'.store.work w'.current := by
  cases h with
  | popped first => exact work_popped first
  | absent unknown => exact work_absent unknown
  | rested known run quiet => exact (work_ran known run).trans (if_pos quiet)
  | pruned known run loud => exact (work_ran known run).trans (if_neg loud)

/-- and comes to what it ends with. -/
theorem Ends.work_eq {r : Except Inconsistency Unit × Store} (h : w.Ends r) :
    w.store.work w.current = r := by
  cases h with
  | finished nobody => exact work_finished nobody
  | failed known run => exact work_failed known run

/-- **THE WORK ENDS**, and with what the store's work comes to. -/
theorem exists_end (w : Work) :
    ∃ last, ReflTransGen Acts w last ∧ last.Ends (w.store.work w.current) := by
  induction w using acts_wellFounded.induction with
  | h w ih =>
      rcases acts_or_ends w with ⟨w', hact⟩ | ⟨r, hend⟩
      · obtain ⟨last, hreach, hend⟩ := ih w' hact
        exact ⟨last, .head hact hreach, hact.work_eq ▸ hend⟩
      · exact ⟨w, .refl, hend.work_eq ▸ hend⟩

theorem advances_of_acts (h : TransGen Acts w w') : w.Advances w' := by
  induction h with
  | single hact => exact hact.advances
  | tail _ hact ih => exact ih.trans hact.advances

theorem propagations_of_acts (h : ReflTransGen Acts w w') :
    w'.store.propagations + w'.allowance ≤ w.store.propagations + w.allowance := by
  induction h with
  | refl => exact Nat.le_refl _
  | tail _ hact ih => exact hact.propagations.trans ih

end Work

/-! ## Propagation -/

/-- How many runs propagation can take: one for every waiting constraint, and for every
    value one of each constraint and one more. -/
def runLimit (s : Store) : Nat :=
  s.domains.totalSize * (s.constraintCount + 1) + s.agenda.size

theorem propagations_work (s : Store) :
    (s.work none).2.propagations ≤ s.propagations + s.runLimit := by
  obtain ⟨last, hreach, hend⟩ := Work.exists_end ⟨s, none⟩
  exact hend.propagations.trans (Work.propagations_of_acts hreach)

theorem propagations_propagate (s : Store) :
    s.propagate.2.propagations ≤ s.propagations + s.runLimit := by
  have hwork := propagations_work s
  rw [propagate]
  split
  · exact Nat.le_add_right _ _
  · split
    · rename_i h
      rwa [h] at hwork
    · rename_i h
      rw [h] at hwork
      exact hwork

/-- What propagation makes of the outcome of the work. -/
def conclude : Except Inconsistency Unit × Store → Except Inconsistency Unit × Store
  | (.ok (), t) => (.ok (), t)
  | (.error why, t) => (.error why, t.fail why)

/-- **PROPAGATION TERMINATES**, whatever waits and whatever the domains are.

    There is no endless sequence of acts of the work.  Unless the store has failed, propagation
    is what some finite sequence of acts ends with; its runs are bounded.  No run of a
    constraint, failing or not, adds a value to any variable, and a run after which the
    constraint is run again has left fewer values.  Whenever the next constraint is about to
    be taken from the agenda, there are fewer values than at any such moment before it, or
    the domains are the same and fewer constraints wait. -/
theorem propagation_terminates (s : Store) :
    (¬ ∃ works : Nat → Work, works 0 = ⟨s, none⟩ ∧ ∀ n, (works n).Acts (works (n + 1))) ∧
      ((∃ why, s.failure = some why ∧ s.propagate = (.error why, s)) ∨
        ∃ last r, ReflTransGen Work.Acts ⟨s, none⟩ last ∧ last.Ends r ∧ s.propagate = conclude r) ∧
      s.propagate.2.propagations ≤ s.propagations + s.runLimit ∧
      (∀ id c v, (s.runOnce id c).2.domain v ≤ s.domain v) ∧
      (∀ id w, Work.Acts ⟨s, some id⟩ w → w.current = some id →
        w.store.domains.totalSize < s.domains.totalSize) ∧
      (∀ t, TransGen Work.Acts ⟨s, none⟩ ⟨t, none⟩ →
        t.domains.totalSize < s.domains.totalSize ∨
          (t.domain = s.domain ∧ t.agenda.size < s.agenda.size)) := by
  refine ⟨?_, ?_, propagations_propagate s, shrinks_runOnce s, ?_, ?_⟩
  · rintro ⟨works, -, hacts⟩
    have : IsWellFounded Work fun w' w => w.Acts w' := ⟨Work.acts_wellFounded⟩
    obtain ⟨n, hn⟩ := WellFounded.not_rel_apply_succ (r := fun w' w => Work.Acts w w') works
    exact hn (hacts n)
  · cases hfailure : s.failure with
    | some why => exact Or.inl ⟨why, rfl, propagate_of_failed hfailure⟩
    | none =>
        obtain ⟨last, hreach, hend⟩ := Work.exists_end ⟨s, none⟩
        refine Or.inr ⟨last, _, hreach, hend, ?_⟩
        rw [propagate, hfailure]
        rfl
  · intro id w hact hagain
    cases hact with
    | absent unknown => cases hagain
    | rested known run quiet => cases hagain
    | pruned known run loud => exact (totalSize_runOnce run).2.resolve_left loud
  -- from one constraint to the next, the values and then the agenda go down
  · intro t hreach
    rcases Work.advances_of_acts hreach with hlt | ⟨hdomain, -, hpending⟩
    · exact Or.inl hlt
    · exact Or.inr ⟨hdomain, by simpa [Work.pending] using hpending⟩

end Store

end ConstraintSolver
