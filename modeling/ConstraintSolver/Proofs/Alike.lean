import ConstraintSolver.Proofs.Operations

/-! # Alike — what propagation depends on

    Two states of the domains are alike if the variables have the same values
    and the same variables were changed; they may differ in what is saved for
    going back.  A step has the same outcome in both (`Step.Built.alike`).

    Two stores are alike if nothing but what is saved, what is counted and how
    the agenda is kept tells them apart.  Propagation and updates come to the
    same in both (`Store.Alike.propagate`, `Store.Alike.prune`), so
    remembering the present state beforehand makes no difference to them. -/

namespace ConstraintSolver

open Constraint

namespace Domains

/-- The second state differs from the first at most in what is saved. -/
structure Alike (D E : Domains) : Prop where
  shape : D.SameShape E
  get : E.get = D.get
  changes : E.changes = D.changes

/-- A pruning that leaves a value lists the variable as changed if it takes a value
    away, whatever is saved. -/
theorem changes_prune {D : Domains} {v : Variable} {p : Pruning}
    (hleft : ((D.get v).prune p).isEmpty = false) :
    (D.prune v p).2.changes =
      if (D.get v).prune p = D.get v then D.changes else v :: D.changes := by
  split
  · rename_i hsame
    rw [D.prune_eq_self hleft hsame]
  · rename_i hchanged
    rcases D.prune_cases v p with ⟨_, hsame⟩ | ⟨cell, hv, _, heq, _⟩
    · exact absurd hsame hchanged
    · rw [heq, changes_replace, eq_of_owns hv]

/-- Domains that are alike stay so, unless one is emptied. -/
theorem Alike.prune {D E : Domains} (h : D.Alike E) {v : Variable} {p : Pruning}
    (hleft : ((D.get v).prune p).isEmpty = false) : (D.prune v p).2.Alike (E.prune v p).2 := by
  have hleft' : ((E.get v).prune p).isEmpty = false := by rwa [h.get]
  refine ⟨?_, funext fun w => ?_, ?_⟩
  · obtain ⟨howner, hsize⟩ := D.sameShape_prune v p
    obtain ⟨howner', hsize'⟩ := E.sameShape_prune v p
    exact ⟨(howner'.trans h.shape.1).trans howner.symm, (hsize'.trans h.shape.2).trans hsize.symm⟩
  · rw [D.get_prune, E.get_prune, h.get]
  · rw [changes_prune hleft, changes_prune hleft', h.get, h.changes]

end Domains

/-- **STEPS** have the same outcome in states that are alike. -/
theorem Step.Built.alike {S : List Variable} {p : Step} (hp : Built S p) {D E : Domains}
    (h : D.Alike E) :
    (p E).1 = (p D).1 ∧ ((p D).1 = .ok () → (p D).2.Alike (p E).2) := by
  induction hp generalizing D E with
  | done => exact ⟨rfl, fun _ => h⟩
  | fail why => exact ⟨rfl, fun hok => nomatch hok⟩
  | narrow p hv =>
      rw [narrow_fst, narrow_fst, narrow_snd, narrow_snd, h.get]
      refine ⟨rfl, fun hok => h.prune ?_⟩
      by_contra hempty
      rw [Bool.not_eq_false] at hempty
      rw [if_pos hempty] at hok
      cases hok
  | @andThen p q hp hq ihp ihq =>
      obtain ⟨hfst, hsnd⟩ := ihp h
      cases hpD : p D with
      | mk result D' =>
          cases hpE : p E with
          | mk result' E' =>
              rw [hpD, hpE] at hfst hsnd
              obtain rfl : result' = result := hfst
              unfold Step.andThen
              simp only [hpD, hpE]
              cases result' with
              | ok u => exact ihq (hsnd rfl)
              | error why => exact ⟨rfl, fun hok => nomatch hok⟩
  -- what is read is the same, so both take the same branch
  | reading _ hsame ih =>
      have hread := hsame E D fun v _ => congrFun h.get v
      rw [Step.reading]
      rw [hread]
      exact ih D h

namespace Store

/-- The second store differs from the first at most in what is saved, in what is
    counted, and in how the agenda is kept. -/
structure Alike (s t : Store) : Prop extends SameModel s t where
  domains : s.domains.Alike t.domains
  agenda : s.agenda.Same t.agenda
  failure : t.failure = s.failure

variable {s t : Store}

/-! ## The work, case by case -/

/-- Work is done when nothing waits. -/
theorem work_finished (h : s.agenda.pop? = none) : s.work none = (.ok (), s) := by
  rw [work]
  split
  · rfl
  · rename_i hpop
    rw [h] at hpop
    cases hpop

/-- Work goes on with what leaves the agenda. -/
theorem work_popped {id : ConstraintId} {rest : Agenda} (h : s.agenda.pop? = some (id, rest)) :
    s.work none = { s with agenda := rest }.work (some id) := by
  rw [work]
  split
  · rename_i hpop
    rw [h] at hpop
    cases hpop
  · rename_i hpop
    rw [h] at hpop
    cases hpop
    rfl

theorem work_absent {id : ConstraintId} (h : s.constraint? id = none) :
    s.work (some id) = s.work none := by
  conv_lhs => rw [work]
  simp only [h]

/-- Work ends with the first inconsistency. -/
theorem work_failed {id : ConstraintId} {c : Constraint} (hc : s.constraint? id = some c)
    {why : Inconsistency} (h : s.runOnce id c = (.error why, t)) :
    s.work (some id) = (.error why, t) := by
  rw [work]
  simp only [hc]
  split
  · rename_i hrun
    rw [h] at hrun
    cases hrun
    rfl
  · rename_i hrun
    rw [h] at hrun
    cases hrun

/-- Work goes on with the same constraint if it has changed something, and else with the next
    one. -/
theorem work_ran {id : ConstraintId} {c : Constraint} (hc : s.constraint? id = some c)
    (h : s.runOnce id c = (.ok (), t)) :
    s.work (some id) =
      if t.domains.changes = [] then t.work none else (t.wakeChanged (some id)).work (some id) := by
  conv_lhs => rw [work]
  simp only [hc]
  split
  · rename_i hrun
    rw [h] at hrun
    cases hrun
  · rename_i hrun
    rw [h] at hrun
    cases hrun
    rfl

/-! ## Alike stores -/

theorem Alike.constraint? (h : Alike s t) (id : ConstraintId) :
    t.constraint? id = s.constraint? id := by
  rw [Store.constraint?, Store.constraint?, h.constraints]

/-- Stores that are alike have runs with the same outcome, and stay alike if it is a success. -/
theorem Alike.runOnce {u : Store} (h : Alike s t) {id : ConstraintId} {c : Constraint}
    {result : Except Inconsistency Unit} (hrun : s.runOnce id c = (result, u)) :
    ∃ w, t.runOnce id c = (result, w) ∧ (result = .ok () → Alike u w) := by
  have hsettled : s.domains.settled.Alike t.domains.settled :=
    ⟨h.domains.shape, h.domains.get, rfl⟩
  obtain ⟨hfst, hsnd⟩ := (built_propagate c).alike hsettled
  rw [runOnce_eq] at hrun ⊢
  cases hrun
  refine ⟨_, Prod.ext_iff.mpr ⟨hfst, rfl⟩, fun hok => ?_⟩
  have hdomains := hsnd hok
  exact ⟨⟨h.names, h.constraints, h.watchers, hdomains.shape⟩, hdomains, h.agenda, h.failure⟩

/-- Stores that are alike wake the same constraints. -/
theorem Alike.wakeOne (h : Alike s t) (self : Option ConstraintId) {a b : Agenda}
    (hab : a.Same b) (id : ConstraintId) :
    (s.wakeOne self a id).Same (t.wakeOne self b id) := by
  rw [Store.wakeOne, Store.wakeOne, h.constraint?]
  split
  · exact hab
  · split
    · exact hab.enqueue _ _
    · exact hab

/-- Stores that are alike stay so when constraints are woken. -/
theorem Alike.wakeChanged (h : Alike s t) (self : Option ConstraintId) :
    Alike (s.wakeChanged self) (t.wakeChanged self) := by
  refine ⟨⟨h.names, h.constraints, h.watchers, h.domains.shape⟩,
    ⟨h.domains.shape, h.domains.get, rfl⟩, ?_, h.failure⟩
  have hwatchers : t.watchersOf = s.watchersOf := by
    funext v
    rw [watchersOf, watchersOf, h.watchers]
  change (s.wake s.domains.changes.reverse self).agenda.Same
    (t.wake t.domains.changes.reverse self).agenda
  rw [agenda_wake, agenda_wake, hwatchers, h.domains.changes]
  -- the same constraints are woken in the same order
  have hmany : ∀ (ids : List ConstraintId) {a b : Agenda}, a.Same b →
      (ids.foldl (s.wakeOne self) a).Same (ids.foldl (t.wakeOne self) b) := by
    intro ids
    induction ids with
    | nil => exact fun hab => hab
    | cons id ids ih => exact fun hab => ih (h.wakeOne self hab id)
  exact hmany _ h.agenda

/-- **THE WORK** has the same outcome in stores that are alike. -/
theorem Alike.work (h : Alike s t) (current : Option ConstraintId) :
    (t.work current).1 = (s.work current).1 ∧
      ((s.work current).1 = .ok () → Alike (s.work current).2 (t.work current).2) := by
  -- both stores go through the same cases, because the agenda and the changes are the same
  induction s, current using work_induction generalizing t with
  | finished s hpop =>
      rw [work_finished (h.agenda.pop_none hpop)]
      exact ⟨rfl, fun _ => h⟩
  | popped s id rest r hpop ih =>
      obtain ⟨rest', hpop', hsame⟩ := h.agenda.pop_some hpop
      rw [work_popped hpop']
      exact ih ⟨⟨h.names, h.constraints, h.watchers, h.shape⟩, h.domains, hsame, h.failure⟩
  | absent s id r hc ih =>
      rw [work_absent (by rw [h.constraint?, hc])]
      exact ih h
  | failed s id c why u hc hrun =>
      obtain ⟨w, hrun', _⟩ := h.runOnce hrun
      rw [work_failed (h.constraint? id ▸ hc) hrun']
      exact ⟨rfl, fun hok => nomatch hok⟩
  | ran s id c u r hc hrun hq ih =>
      obtain ⟨w, hrun', halike⟩ := h.runOnce hrun
      rw [work_ran (h.constraint? id ▸ hc) hrun',
        if_pos ((halike rfl).domains.changes.trans hq)]
      exact ih (halike rfl)
  | rerun s id c u r hc hrun hne ih =>
      obtain ⟨w, hrun', halike⟩ := h.runOnce hrun
      rw [work_ran (h.constraint? id ▸ hc) hrun',
        if_neg fun hq => hne ((halike rfl).domains.changes.symm.trans hq)]
      exact ih ((halike rfl).wakeChanged (some id))

/-- **PROPAGATION** has the same outcome in stores that are alike. -/
theorem Alike.propagate {u : Store} (h : Alike s t) {result : Except Inconsistency Unit}
    (hprop : s.propagate = (result, u)) :
    ∃ w, t.propagate = (result, w) ∧ (result = .ok () → Alike u w) := by
  obtain ⟨hfst, hsnd⟩ := h.work none
  cases hf : s.failure with
  | some why =>
      rw [propagate_of_failed hf] at hprop
      cases hprop
      exact ⟨t, propagate_of_failed (h.failure.trans hf), fun hok => nomatch hok⟩
  | none =>
      have hf' := h.failure.trans hf
      cases hwork : (s.work none).1 with
      | ok _ =>
          rw [propagate_of_ok hf hwork] at hprop
          cases hprop
          exact ⟨_, propagate_of_ok hf' (hfst.trans hwork), fun _ => hsnd hwork⟩
      | error why =>
          rw [propagate_of_error hf hwork] at hprop
          cases hprop
          exact ⟨_, propagate_of_error hf' (hfst.trans hwork), fun hok => nomatch hok⟩

theorem Alike.owns (h : Alike s t) (v : Variable) : t.owns v = s.owns v := by
  rw [Store.owns, Store.owns]
  exact decide_eq_decide.mpr (by rw [Domains.Owns, Domains.Owns, h.shape.1])

/-- **UPDATES** have the same outcome in stores that are alike. -/
theorem Alike.prune {u : Store} (h : Alike s t) {v : Variable} {p : Pruning}
    {result : Except UpdateError Unit} (hprune : s.prune v p = (result, u)) :
    ∃ w, t.prune v p = (result, w) ∧ (result = .ok () → Alike u w) := by
  cases hv : s.owns v with
  | false =>
      rw [prune_of_foreign hv] at hprune
      cases hprune
      exact ⟨t, prune_of_foreign ((h.owns v).trans hv) p, fun hok => nomatch hok⟩
  | true =>
      cases hf : s.failure with
      | some why =>
          rw [prune_of_failed hv hf] at hprune
          cases hprune
          exact ⟨t, prune_of_failed ((h.owns v).trans hv) (h.failure.trans hf) p,
            fun hok => nomatch hok⟩
      | none =>
          rw [prune_eq hv hf] at hprune
          rw [prune_eq ((h.owns v).trans hv) (h.failure.trans hf), h.domains.get]
          split at hprune
          · rename_i hempty
            cases hprune
            exact ⟨_, if_pos hempty, fun hok => nomatch hok⟩
          · rename_i hleft
            cases hprune
            refine ⟨_, if_neg hleft, fun _ => ?_⟩
            have hdomains := h.domains.prune (Bool.not_eq_true _ ▸ hleft)
            have hpruned : Alike { s with domains := (s.domains.prune v p).2 }
                { t with domains := (t.domains.prune v p).2 } :=
              ⟨⟨h.names, h.constraints, h.watchers, hdomains.shape⟩, hdomains, h.agenda,
                h.failure⟩
            exact hpruned.wakeChanged none

/-- Stores that are alike accept the same assignments, and stay alike then. -/
theorem Alike.assign {u : Store} (h : Alike s t) {v : Variable} {value : Int}
    {result : Except UpdateError Unit} (hassign : s.assign v value = (result, u)) :
    ∃ w, t.assign v value = (result, w) ∧ (result = .ok () → Alike u w) := by
  have hdomain : t.domain v = s.domain v := congrFun h.domains.get v
  rw [Store.assign] at hassign ⊢
  rw [h.owns, hdomain]
  split at hassign
  · rename_i hforeign
    cases hassign
    refine ⟨t, if_pos hforeign, ?_⟩
    intro hok
    cases hok
  · rename_i howns
    rw [if_neg howns]
    split at hassign
    · rename_i hnone
      cases hassign
      refine ⟨t, if_pos hnone, ?_⟩
      intro hok
      cases hok
    · rename_i hsome
      rw [if_neg hsome]
      exact h.prune hassign

/-- Whatever is noted or remembered, the store stays alike. -/
theorem Alike.note (h : Alike s t) (e : Event) : Alike s (t.note e) :=
  ⟨⟨h.names, h.constraints, h.watchers, h.shape⟩, h.domains, h.agenda, h.failure⟩

/-- A store is like itself after a snapshot. -/
theorem Alike.snapshot (h : Alike s t) : Alike s t.snapshot.2 :=
  ⟨⟨h.names, h.constraints, h.watchers, h.shape⟩,
    ⟨h.domains.shape, h.domains.get, h.domains.changes⟩, h.agenda, h.failure⟩

end Store

end ConstraintSolver
