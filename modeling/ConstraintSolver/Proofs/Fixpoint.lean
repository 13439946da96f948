import ConstraintSolver.Proofs.Stability
import ConstraintSolver.Proofs.Trail
import ConstraintSolver.Proofs.Waiting
import ConstraintSolver.Store.Propagation

/-! # Fixpoints — what the work of a store comes to

    While a store works, every constraint waits on the agenda, is the one at
    hand, or meets a criterion that is kept as long as its variables keep
    their domains, such as being stable (`Coherent`).  A run that prunes
    something wakes the watchers of what it pruned; a run that prunes
    nothing shows that its constraint is stable.  So when the work ends well
    nothing waits, and every constraint meets the criterion
    (`work_coherent`).

    Nothing is lost on the way: a family which is stable under every
    constraint survives the work, and the work ends well (`work_spares`).
    Taken together, the domains which the work leaves are the largest stable
    family.  Neither statement mentions the order in which constraints are
    run. -/

namespace ConstraintSolver

open Constraint

/-- A property of a constraint that depends on the domains of its variables
    only, and which propagation establishes. -/
structure Criterion where
  Met : Constraint → Domains → Prop
  congr : ∀ c (D E : Domains), (∀ v ∈ c.occurrences, D.get v = E.get v) → Met c D → Met c E
  of_stable : ∀ c D, Stable c D → Met c D

namespace Criterion

/-- Asks nothing. -/
def trivial : Criterion := ⟨fun _ _ => True, fun _ _ _ _ h => h, fun _ _ _ => True.intro⟩

/-- Asks that there is nothing to prune. -/
def stable : Criterion :=
  ⟨Stable, fun c _ _ h => ((built_propagate c).idle_congr h).mp, fun _ _ h => h⟩

/-- Whether a tree can be propagated is a matter of the domains of its variables. -/
theorem suits_congr {F G : Family} {c : Constraint} (h : ∀ v ∈ c.occurrences, F v = G v)
    (hsuit : Suits F c) : Suits G c := by
  refine ⟨fun v hv => h v hv ▸ hsuit.inhabited v hv, fun b hb x hx => ?_, hsuit.negatable⟩
  exact hsuit.boolean b hb x (h b (flags_subset_occurrences c b hb) ▸ hx)

/-- Asks that the constraint is not known to be violated. -/
def unviolated : Criterion where
  Met c D := Suits D.get c → entailment D.get c ≠ .violated
  congr c D E h hmet hsuit := by
    rw [← entailment_congr c h]
    exact hmet (suits_congr (fun v hv => (h v hv).symm) hsuit)
  of_stable c _ hst hsuit hvio := not_stable_of_violated c hsuit hvio hst

end Criterion

namespace Store

/-! ## Tables -/

/-- The variables of a store are those with its number and the positions of its cells. -/
theorem mem_allVariables {s : Store} {v : Variable} :
    v ∈ s.allVariables ↔ s.domains.Owns v ∧ v.index < s.domains.cells.size := by
  simp only [allVariables, Domains.allVariables, List.mem_map, List.mem_range, Domains.Owns]
  constructor
  · rintro ⟨i, hi, rfl⟩
    exact ⟨rfl, hi⟩
  · rintro ⟨hv, hi⟩
    exact ⟨v.index, hi, Domains.eq_of_owns hv⟩

theorem owns_of_mem {s : Store} {v : Variable} (h : v ∈ s.allVariables) : s.owns v = true :=
  decide_eq_true (mem_allVariables.mp h).1

/-- The constraints are about variables of the store, and are watched by all of
    theirs. -/
structure Wired (s : Store) : Prop where
  declared : ∀ c ∈ s.constraints.toList, ∀ v ∈ c.occurrences, v ∈ s.allVariables
  watched : ∀ i c, s.constraints[i]? = some c → ∀ v ∈ c.occurrences,
    ConstraintId.ofIndex i ∈ s.watchersOf v
  watchers : s.watchers.size = s.domains.cells.size

/-- Every constraint has an id of its own. -/
def Numbered (s : Store) : Prop := s.constraintCount ≤ ConstraintId.limit

/-- As long as ids are not given twice, an id tells the position. -/
theorem index_ofIndex {s : Store} (hnum : s.Numbered) {i : Nat} {c : Constraint}
    (h : s.constraints[i]? = some c) : (ConstraintId.ofIndex i).index = i := by
  have hlt := (Array.getElem?_eq_some_iff.mp h).1
  exact Nat.mod_eq_of_lt (Nat.lt_of_lt_of_le hlt hnum)

/-- As long as ids are not given twice, the constraint at a position is found by its id. -/
theorem constraint?_ofIndex {s : Store} (hnum : s.Numbered) {i : Nat} {c : Constraint}
    (h : s.constraints[i]? = some c) : s.constraint? (.ofIndex i) = some c := by
  rw [constraint?, index_ofIndex hnum h, h]

theorem mem_constraints {s : Store} {i : Nat} {c : Constraint}
    (h : s.constraints[i]? = some c) : c ∈ s.constraints.toList :=
  Array.mem_toList_iff.mpr (Array.mem_of_getElem? h)

theorem mem_of_constraint? {s : Store} {id : ConstraintId} {c : Constraint}
    (h : s.constraint? id = some c) : c ∈ s.constraints.toList := mem_constraints h

/-- The two stores have the same variables and constraints. -/
structure SameModel (s t : Store) : Prop where
  names : t.names = s.names
  constraints : t.constraints = s.constraints
  watchers : t.watchers = s.watchers
  shape : s.domains.SameShape t.domains

namespace SameModel

theorem refl (s : Store) : SameModel s s := ⟨rfl, rfl, rfl, .refl _⟩

variable {s t u : Store}

theorem trans (h : SameModel s t) (h' : SameModel t u) : SameModel s u :=
  ⟨h'.names.trans h.names, h'.constraints.trans h.constraints, h'.watchers.trans h.watchers,
    h.shape.trans h'.shape⟩

theorem number (h : SameModel s t) : t.number = s.number := h.shape.1

theorem allVariables (h : SameModel s t) : t.allVariables = s.allVariables := by
  simp only [Store.allVariables, Domains.allVariables, h.shape.1, h.shape.2]

theorem numbered (h : SameModel s t) (hnum : s.Numbered) : t.Numbered := by
  rwa [Numbered, constraintCount, h.constraints]

/-- Stores of the same model are wired alike. -/
theorem wired (h : SameModel s t) (hw : s.Wired) : t.Wired := by
  refine ⟨?_, ?_, ?_⟩
  · rw [h.constraints, h.allVariables]
    exact hw.declared
  · simp only [watchersOf, h.constraints, h.watchers]
    exact hw.watched
  · rw [h.watchers, h.shape.2]
    exact hw.watchers

end SameModel

/-! ## How a store changes while it works -/

/-- The second store is the first one with values removed, and it can be taken
    back to all states the first one can be taken back to. -/
structure Evolves (s t : Store) : Prop extends SameModel s t where
  retraces : s.domains.Retraces t.domains
  shrinks : t.domains.get ≤ s.domains.get

namespace Evolves

theorem refl (s : Store) : Evolves s s := ⟨.refl s, .refl _, le_refl s.domains.get⟩

theorem trans {s t u : Store} (h : Evolves s t) (h' : Evolves t u) : Evolves s u :=
  ⟨h.toSameModel.trans h'.toSameModel, h.retraces.trans h'.retraces,
    h'.shrinks.trans h.shrinks⟩

end Evolves

/-- A run propagates the constraint with an empty list of changes. -/
theorem runOnce_eq (s : Store) (id : ConstraintId) (c : Constraint) :
    s.runOnce id c =
      ((c.propagate s.domains.settled).1,
        { s with
          domains := (c.propagate s.domains.settled).2
          propagations := s.propagations + 1
          journal := s.journal.record
            (.propagated id (outcome (c.propagate s.domains.settled).1
              (c.propagate s.domains.settled).2)) }) := rfl

/-- A run removes values, and everything before can be returned to. -/
theorem evolves_runOnce (s : Store) (id : ConstraintId) (c : Constraint) :
    Evolves s (s.runOnce id c).2 := by
  have hb := built_propagate c
  rw [runOnce_eq]
  exact ⟨⟨rfl, rfl, rfl, hb.sameShape s.domains.settled⟩,
    (Domains.retraces_settled s.domains).trans (hb.retraces _), hb.shrinks s.domains.settled⟩

theorem evolves_wakeChanged (s : Store) (self : Option ConstraintId) :
    Evolves s (s.wakeChanged self) :=
  ⟨⟨rfl, rfl, rfl, .refl _⟩, Domains.retraces_settled _, le_refl s.domains.get⟩

/-! ## Waking -/

/-- Puts a constraint on the agenda, unless it is the one at hand. -/
def wakeOne (s : Store) (self : Option ConstraintId) (agenda : Agenda) (id : ConstraintId) :
    Agenda :=
  if some id = self then agenda
  else
    match s.constraint? id with
    | some c => agenda.enqueue id c.priority
    | none => agenda

/-- Waking goes through the watchers of what has changed, one after the other. -/
theorem agenda_wake (s : Store) (changed : List Variable) (self : Option ConstraintId) :
    (s.wake changed self).agenda =
      (changed.flatMap s.watchersOf).foldl (s.wakeOne self) s.agenda := by
  rw [List.foldl_flatMap]
  rfl

theorem consistent_wakeOne {s : Store} {agenda : Agenda} (ha : agenda.Consistent)
    (self : Option ConstraintId) (id : ConstraintId) :
    (s.wakeOne self agenda id).Consistent := by
  rw [wakeOne]
  split
  · exact ha
  · split
    · exact ha.enqueue ..
    · exact ha

/-- The constraint that is woken waits then, unless it is the one at hand. -/
theorem mem_wakeOne {s : Store} {agenda : Agenda} (ha : agenda.Consistent)
    (self : Option ConstraintId) (id other : ConstraintId) :
    other ∈ (s.wakeOne self agenda id).toList ↔
      other ∈ agenda.toList ∨
        (other = id ∧ some other ≠ self ∧ ∃ c, s.constraint? other = some c) := by
  rw [wakeOne]
  split
  · rename_i hself
    exact (or_iff_left fun h => h.2.1 (h.1 ▸ hself)).symm
  · rename_i hself
    split
    · rename_i c hc
      rw [Agenda.mem_enqueue ha, or_comm]
      refine or_congr_right ⟨fun h => ⟨h, h ▸ hself, c, h ▸ hc⟩, And.left⟩
    · rename_i hc
      refine (or_iff_left fun h => ?_).symm
      obtain ⟨rfl, _, c, hsome⟩ := h
      rw [hc] at hsome
      cases hsome

/-- Waking several constraints makes them wait, and no others. -/
theorem wakeOne_foldl {s : Store} (self : Option ConstraintId) (ids : List ConstraintId)
    {agenda : Agenda} (ha : agenda.Consistent) :
    (ids.foldl (s.wakeOne self) agenda).Consistent ∧
      ∀ other, other ∈ (ids.foldl (s.wakeOne self) agenda).toList ↔
        other ∈ agenda.toList ∨
          (other ∈ ids ∧ some other ≠ self ∧ ∃ c, s.constraint? other = some c) := by
  induction ids generalizing agenda with
  | nil => simp [ha]
  | cons id ids ih =>
      obtain ⟨hcons, hmem⟩ := ih (consistent_wakeOne ha self id)
      refine ⟨hcons, fun other => ?_⟩
      rw [List.foldl_cons, hmem, mem_wakeOne ha, List.mem_cons, or_assoc, or_and_right]

/-- **WAKING** adds the watchers of the changed variables, and no others. -/
theorem mem_wake {s : Store} (ha : s.agenda.Consistent) (changed : List Variable)
    (self : Option ConstraintId) :
    (s.wake changed self).agenda.Consistent ∧
      ∀ id, id ∈ (s.wake changed self).agenda.toList ↔
        id ∈ s.agenda.toList ∨ ((∃ v ∈ changed, id ∈ s.watchersOf v) ∧ some id ≠ self ∧
          ∃ c, s.constraint? id = some c) := by
  rw [agenda_wake]
  obtain ⟨hcons, hmem⟩ := wakeOne_foldl (s := s) self (changed.flatMap s.watchersOf) ha
  refine ⟨hcons, fun id => ?_⟩
  rw [hmem, List.mem_flatMap]

/-! ## Coherence -/

/-- Every constraint waits, is the one at hand, or meets the criterion. -/
structure Coherent (Q : Criterion) (current : Option ConstraintId) (s : Store) : Prop where
  inhabited : Family.Inhabited s.domains.get s.allVariables
  quiet : s.domains.changes = []
  agenda : s.agenda.Consistent
  served : ∀ i c, s.constraints[i]? = some c → ConstraintId.ofIndex i ∈ s.agenda.toList ∨
    current = some (.ofIndex i) ∨ Q.Met c s.domains

/-- A variable which is not on the list of changes has kept its domain. -/
theorem get_of_quiet {D E : Domains} (h : D.Lists E) {v : Variable} (hv : v ∉ E.changes) :
    D.get v = E.get v := by
  by_contra hne
  exact hv (h.2 v fun heq => hne heq.symm)

/-- A run lists the variables that it changes. -/
theorem lists_runOnce (s : Store) (id : ConstraintId) (c : Constraint) :
    s.domains.settled.Lists (s.runOnce id c).2.domains :=
  (built_propagate c).lists s.domains.settled

/-- A run that goes well leaves every variable a value which had one. -/
theorem runOnce_keeps_inhabited {s t : Store} {id : ConstraintId} {c : Constraint}
    (h : s.runOnce id c = (.ok (), t)) {v : Variable} (hv : ∃ x, x ∈ s.domains.get v) :
    ∃ x, x ∈ t.domains.get v := by
  rw [runOnce_eq] at h
  have hok : (c.propagate s.domains.settled).1 = .ok () := congrArg Prod.fst h
  have ht : (c.propagate s.domains.settled).2 = t.domains := congrArg (fun r => r.2.domains) h
  rw [← ht]
  exact (built_propagate c).keeps_inhabited hok hv

/-- After a run that succeeds every variable still has values. -/
theorem inhabited_runOnce {s t : Store} {id : ConstraintId} {c : Constraint}
    (hin : Family.Inhabited s.domains.get s.allVariables) (h : s.runOnce id c = (.ok (), t)) :
    Family.Inhabited t.domains.get t.allVariables := by
  have hev := evolves_runOnce s id c
  rw [h] at hev
  rw [hev.allVariables]
  exact fun v hv => runOnce_keeps_inhabited h (hin v hv)

/-- A run without changes shows that the constraint is stable. -/
theorem stable_of_quiet {s t : Store} {id : ConstraintId} {c : Constraint}
    (h : s.runOnce id c = (.ok (), t)) (hq : t.domains.changes = []) : Stable c t.domains := by
  have hlists := lists_runOnce s id c
  have ht : t = (s.runOnce id c).2 := by rw [h]
  -- nothing is on the list of changes, so nothing has changed
  have hget : t.domains.get = s.domains.get := by
    funext v
    rw [← ht] at hlists
    exact (get_of_quiet hlists (by simp [hq])).symm
  have hidle : Step.Idle c.propagate s.domains.settled := by
    rw [runOnce_eq] at h
    refine ⟨congrArg Prod.fst h, ?_⟩
    rw [ht] at hget
    exact hget
  have hsame : ∀ v ∈ c.occurrences, s.domains.settled.get v = t.domains.get v :=
    fun v _ => (congrFun hget v).symm
  exact ((built_propagate c).idle_congr hsame).mp hidle

/-- Waking the watchers of what was pruned makes up for the pruning: the other
    constraints keep what they had unless they are woken. -/
theorem Coherent.woken {Q : Criterion} {s t : Store} {self : Option ConstraintId}
    (h : Coherent Q self s) (hw : s.Wired) (hnum : s.Numbered) (hev : Evolves s t)
    (hagenda : t.agenda = s.agenda) (hlists : s.domains.settled.Lists t.domains)
    (hin : Family.Inhabited t.domains.get t.allVariables) :
    Coherent Q self (t.wakeChanged self) := by
  have ha : t.agenda.Consistent := by
    rw [hagenda]
    exact h.agenda
  obtain ⟨hcons, hmem⟩ := mem_wake ha t.domains.takeChanges.1 self
  refine ⟨hin, rfl, hcons, fun i d hd => ?_⟩
  have hd' : s.constraints[i]? = some d := by
    rw [← hev.constraints]
    exact hd
  rcases h.served i d hd' with hwait | hcur | hmet
  · refine Or.inl ((hmem _).mpr (Or.inl ?_))
    rw [hagenda]
    exact hwait
  · exact Or.inr (Or.inl hcur)
  · by_cases hid : some (ConstraintId.ofIndex i) = self
    · exact Or.inr (Or.inl hid.symm)
    · by_cases hchanged : ∃ v ∈ d.occurrences, v ∈ t.domains.changes
      · obtain ⟨v, hv, hch⟩ := hchanged
        -- a variable of the constraint has changed, so the constraint is woken
        refine Or.inl ((hmem _).mpr (Or.inr ⟨⟨v, ?_, ?_⟩, hid, d, ?_⟩))
        · exact List.mem_reverse.mpr hch
        · exact (hev.wired hw).watched i d hd v hv
        · exact constraint?_ofIndex (hev.numbered hnum) hd
      · refine Or.inr (Or.inr (Q.congr d s.domains _ (fun v hv => ?_) hmet))
        exact get_of_quiet hlists fun hch => hchanged ⟨v, hv, hch⟩

/-- A constraint that has changed something is run again, and the store is coherent before that as
    it was before the first run. -/
theorem Coherent.rerun {Q : Criterion} {s t : Store} {id : ConstraintId} {c : Constraint}
    (h : Coherent Q (some id) s) (hw : s.Wired) (hnum : s.Numbered)
    (hrun : s.runOnce id c = (.ok (), t)) : Coherent Q (some id) (t.wakeChanged (some id)) := by
  have hev := evolves_runOnce s id c
  have hlists := lists_runOnce s id c
  have hagenda := agenda_runOnce s id c
  rw [hrun] at hev hlists hagenda
  exact h.woken hw hnum hev hagenda hlists (inhabited_runOnce h.inhabited hrun)

/-- A run that changes nothing is the last one of its constraint for now. -/
theorem Coherent.ran {Q : Criterion} {s t : Store} {id : ConstraintId} {c : Constraint}
    (h : Coherent Q (some id) s) (hnum : s.Numbered) (hc : s.constraint? id = some c)
    (hrun : s.runOnce id c = (.ok (), t)) (hq : t.domains.changes = []) : Coherent Q none t := by
  have hev := evolves_runOnce s id c
  have hlists := lists_runOnce s id c
  have hagenda := agenda_runOnce s id c
  rw [hrun] at hev hlists hagenda
  refine ⟨inhabited_runOnce h.inhabited hrun, hq, ?_, fun i d hd => ?_⟩
  · rw [hagenda]
    exact h.agenda
  · rw [hev.constraints] at hd
    rcases h.served i d hd with hwait | hcur | hmet
    · left
      rw [hagenda]
      exact hwait
    · obtain rfl : id = ConstraintId.ofIndex i := Option.some.inj hcur
      -- the constraint at hand: its quiet run shows that it is stable
      rw [constraint?_ofIndex hnum hd] at hc
      obtain rfl : d = c := Option.some.inj hc
      exact Or.inr (Or.inr (Q.of_stable d t.domains (stable_of_quiet hrun hq)))
    · refine Or.inr (Or.inr (Q.congr d s.domains _ (fun v _ => ?_) hmet))
      exact get_of_quiet hlists (by simp [hq])

/-- The constraint that leaves the agenda is the one at hand. -/
theorem Coherent.pop {Q : Criterion} {s : Store} {id : ConstraintId} {rest : Agenda}
    (h : Coherent Q none s) (hpop : s.agenda.pop? = some (id, rest)) :
    Coherent Q (some id) { s with agenda := rest } := by
  obtain ⟨hcons, hperm⟩ := h.agenda.pop hpop
  refine ⟨h.inhabited, h.quiet, hcons, fun i d hd => ?_⟩
  rcases h.served i d hd with hwait | hcur | hmet
  · rcases List.mem_cons.mp (hperm.mem_iff.mp hwait) with heq | hrest
    · exact Or.inr (Or.inl (congrArg some heq.symm))
    · exact Or.inl hrest
  · cases hcur
  · exact Or.inr (Or.inr hmet)

/-- An id without a constraint is passed over. -/
theorem Coherent.skip {Q : Criterion} {s : Store} {id : ConstraintId}
    (h : Coherent Q (some id) s) (hnum : s.Numbered) (hc : s.constraint? id = none) :
    Coherent Q none s := by
  refine ⟨h.inhabited, h.quiet, h.agenda, fun i d hd => ?_⟩
  rcases h.served i d hd with hwait | hcur | hmet
  · exact Or.inl hwait
  · obtain rfl : id = ConstraintId.ofIndex i := Option.some.inj hcur
    rw [constraint?_ofIndex hnum hd] at hc
    cases hc
  · exact Or.inr (Or.inr hmet)

/-! ## The work -/

/-- Induction along the work of a store. -/
theorem work_induction {P : Store → Option ConstraintId → Except Inconsistency Unit × Store → Prop}
    (finished : ∀ s, s.agenda.pop? = none → P s none (.ok (), s))
    (popped : ∀ s id rest r, s.agenda.pop? = some (id, rest) →
      P { s with agenda := rest } (some id) r → P s none r)
    (absent : ∀ s id r, s.constraint? id = none → P s none r → P s (some id) r)
    (failed : ∀ s id c why t, s.constraint? id = some c → s.runOnce id c = (.error why, t) →
      P s (some id) (.error why, t))
    (ran : ∀ s id c t r, s.constraint? id = some c → s.runOnce id c = (.ok (), t) →
      t.domains.changes = [] → P t none r → P s (some id) r)
    (rerun : ∀ s id c t r, s.constraint? id = some c → s.runOnce id c = (.ok (), t) →
      t.domains.changes ≠ [] → P (t.wakeChanged (some id)) (some id) r → P s (some id) r)
    (s : Store) (current : Option ConstraintId) : P s current (s.work current) := by
  fun_induction work s current with
  | case1 s h => exact finished s h
  | case2 s id rest h ih => exact popped s id rest _ h ih
  | case3 s id h ih => exact absent s id _ h ih
  | case4 s id c hc why t h => exact failed s id c why t hc h
  | case5 s id c hc t h hq ih => exact ran s id c t _ hc h hq ih
  | case6 s id c hc t h hq ih => exact rerun s id c t _ hc h hq ih

theorem evolves_agenda (s : Store) (agenda : Agenda) : Evolves s { s with agenda := agenda } :=
  ⟨⟨rfl, rfl, rfl, .refl _⟩, .refl _, le_refl s.domains.get⟩

/-- Working removes values, and everything before can be returned to. -/
theorem evolves_work (s : Store) (current : Option ConstraintId) :
    Evolves s (s.work current).2 := by
  induction s, current using work_induction with
  | finished s h => exact .refl s
  | popped s id rest r h ih => exact (evolves_agenda s rest).trans ih
  | absent s id r h ih => exact ih
  | failed s id c why t hc h =>
      have := evolves_runOnce s id c
      rwa [h] at this
  | ran s id c t r hc h hq ih =>
      have := evolves_runOnce s id c
      rw [h] at this
      exact this.trans ih
  | rerun s id c t r hc h _ ih =>
      have := evolves_runOnce s id c
      rw [h] at this
      exact (this.trans (evolves_wakeChanged t (some id))).trans ih

theorem failure_work (s : Store) (current : Option ConstraintId) :
    (s.work current).2.failure = s.failure := by
  induction s, current using work_induction with
  | finished s h => rfl
  | popped s id rest r h ih => exact ih
  | absent s id r h ih => exact ih
  | failed s id c why t hc h =>
      rw [runOnce_eq] at h
      exact congrArg (fun r => r.2.failure) h.symm
  | ran s id c t r hc h hq ih =>
      rw [runOnce_eq] at h
      exact ih.trans (congrArg (fun r => r.2.failure) h.symm)
  | rerun s id c t r hc h _ ih =>
      rw [runOnce_eq] at h
      exact ih.trans (congrArg (fun r => r.2.failure) h.symm)

/-- **THE WORK REACHES A FIXPOINT**: when it ends well, nothing waits, and every
    constraint meets the criterion. -/
theorem work_coherent {Q : Criterion} (s : Store) (current : Option ConstraintId)
    (h : Coherent Q current s) (hw : s.Wired) (hnum : s.Numbered)
    (hok : (s.work current).1 = .ok ()) :
    Coherent Q none (s.work current).2 ∧ (s.work current).2.agenda.toList = [] := by
  induction s, current using work_induction with
  | finished s hpop => exact ⟨h, Agenda.toList_of_pop?_none hpop⟩
  | popped s id rest r hpop ih =>
      have hev := evolves_agenda s rest
      exact ih (h.pop hpop) (hev.wired hw) (hev.numbered hnum) hok
  | absent s id r hc ih => exact ih (h.skip hnum hc) hw hnum hok
  | failed s id c why t hc hrun => cases hok
  | ran s id c t r hc hrun hq ih =>
      have hev := evolves_runOnce s id c
      rw [hrun] at hev
      exact ih (h.ran hnum hc hrun hq) (hev.wired hw) (hev.numbered hnum) hok
  | rerun s id c t r hc hrun _ ih =>
      have hev := evolves_runOnce s id c
      rw [hrun] at hev
      have hev' := hev.trans (evolves_wakeChanged t (some id))
      exact ih (h.rerun hw hnum hrun) (hev'.wired hw) (hev'.numbered hnum) hok

/-- Where working succeeds every variable still has values. -/
theorem work_inhabited (s : Store) (current : Option ConstraintId)
    (hin : Family.Inhabited s.domains.get s.allVariables) (hok : (s.work current).1 = .ok ()) :
    Family.Inhabited (s.work current).2.domains.get (s.work current).2.allVariables := by
  induction s, current using work_induction with
  | finished s hpop => exact hin
  | popped s id rest r hpop ih => exact ih hin hok
  | absent s id r hc ih => exact ih hin hok
  | failed s id c why t hc hrun => cases hok
  | ran s id c t r hc hrun hq ih => exact ih (inhabited_runOnce hin hrun) hok
  | rerun s id c t r hc hrun _ ih =>
      have hin' := inhabited_runOnce hin hrun
      exact ih hin' hok

/-- Every constraint of the store can be propagated on these domains. -/
def Propagable (s : Store) : Prop := ∀ c ∈ s.constraints.toList, Suits s.domains.get c

/-- Constraints that could be propagated still can, if the variables have values. -/
theorem Propagable.evolves {s t : Store} (h : s.Propagable) (hev : Evolves s t)
    (hin : Family.Inhabited t.domains.get s.allVariables) (hw : s.Wired) : t.Propagable := by
  intro c hc
  rw [hev.constraints] at hc
  exact (h c hc).mono hev.shrinks (hin.mono (hw.declared c hc))

/-- The family lies inside the domains of the store, gives every variable a
    value, and is stable under every constraint. -/
structure Refuge (s : Store) (D' : Domains) : Prop where
  inside : D'.get ≤ s.domains.get
  inhabited : Family.Inhabited D'.get s.allVariables
  stable : ∀ c ∈ s.constraints.toList, Stable c D'

/-- A family that every constraint leaves alone is not touched by a run. -/
theorem Refuge.runOnce {s : Store} {D' : Domains} (h : Refuge s D') (hsuit : s.Propagable)
    (hw : s.Wired) {id : ConstraintId} {c : Constraint} (hc : s.constraint? id = some c) :
    (s.runOnce id c).1 = .ok () ∧ Refuge (s.runOnce id c).2 D' ∧
      (s.runOnce id c).2.Propagable := by
  have hmem := mem_of_constraint? hc
  have hev := evolves_runOnce s id c
  have hsuit' : Suits s.domains.settled.get c := hsuit c hmem
  obtain ⟨hok, hle⟩ := spares_of_stable c hsuit' (h.inhabited.mono (hw.declared c hmem))
    h.inside (h.stable c hmem)
  -- the run spares the family, which is therefore a refuge in the domains it leaves
  have href : Refuge (s.runOnce id c).2 D' := by
    refine ⟨hle, ?_, ?_⟩
    · rw [hev.allVariables]
      exact h.inhabited
    · rw [hev.constraints]
      exact h.stable
  refine ⟨hok, href, hsuit.evolves hev (fun v hv => ?_) hw⟩
  exact (h.inhabited v hv).imp fun x hx => hle v x hx

/-- **STABLE FAMILIES SURVIVE**: the work ends well and leaves a stable family
    alone, in whatever order the constraints wait. -/
theorem work_spares {D' : Domains} (s : Store) (current : Option ConstraintId)
    (h : Refuge s D') (hsuit : s.Propagable) (hw : s.Wired) :
    (s.work current).1 = .ok () ∧ D'.get ≤ (s.work current).2.domains.get := by
  induction s, current using work_induction with
  | finished s hpop => exact ⟨rfl, h.inside⟩
  | popped s id rest r hpop ih =>
      exact ih ⟨h.inside, h.inhabited, h.stable⟩ hsuit ((evolves_agenda s rest).wired hw)
  | absent s id r hc ih => exact ih h hsuit hw
  | failed s id c why t hc hrun =>
      have hok := (h.runOnce hsuit hw hc).1
      rw [hrun] at hok
      cases hok
  | ran s id c t r hc hrun hq ih =>
      have hev := evolves_runOnce s id c
      obtain ⟨_, href, hsuit'⟩ := h.runOnce hsuit hw hc
      rw [hrun] at hev href hsuit'
      exact ih href hsuit' (hev.wired hw)
  -- the agenda of the other state is longer, but its domains are the same
  | rerun s id c t r hc hrun _ ih =>
      have hev := evolves_runOnce s id c
      obtain ⟨_, href, hsuit'⟩ := h.runOnce hsuit hw hc
      rw [hrun] at hev href hsuit'
      exact ih ⟨href.inside, href.inhabited, href.stable⟩ hsuit'
        ((hev.trans (evolves_wakeChanged t (some id))).wired hw)

/-! ## Solutions -/

/-- The assignment satisfies every constraint of the store. -/
def Satisfies (s : Store) (σ : Assignment) : Prop :=
  ∀ c ∈ s.constraints.toList, c.holds σ = true

/-- The assignment is drawn from the domains of the store, and satisfies the given
    constraints. -/
def Solves (s : Store) (cs : List Constraint) (σ : Assignment) : Prop :=
  Family.Draws s.domains.get s.allVariables σ ∧ ∀ c ∈ cs, c.holds σ = true

/-- The assignment is drawn from the domains of the store, and satisfies all its
    constraints. -/
def SolvedBy (s : Store) (σ : Assignment) : Prop := s.Solves s.constraints.toList σ

/-- The values of a solution are a stable family. -/
theorem refuge_of_satisfies {s : Store} {σ : Assignment} (hsuit : s.Propagable) (hw : s.Wired)
    (hdraw : Family.Draws s.domains.get s.allVariables σ) (hsat : s.Satisfies σ) :
    Refuge s (s.domains.pointed σ) := by
  have hget := s.domains.get_pointed σ
  refine ⟨hget ▸ Family.pointed_le _ σ, hget ▸ hdraw.pointed.inhabited, fun c hc => ?_⟩
  exact stable_pointed c (hsuit c hc) (fun v hv => hdraw v (hw.declared c hc v hv)) (hsat c hc)

/-- **SOLUTIONS SURVIVE** the work. -/
theorem work_keeps_solution {s : Store} {σ : Assignment} (hsuit : s.Propagable) (hw : s.Wired)
    (hdraw : Family.Draws s.domains.get s.allVariables σ) (hsat : s.Satisfies σ)
    (current : Option ConstraintId) :
    (s.work current).1 = .ok () ∧
      Family.Draws (s.work current).2.domains.get s.allVariables σ := by
  obtain ⟨hok, hle⟩ := work_spares s current (refuge_of_satisfies hsuit hw hdraw hsat) hsuit hw
  rw [Domains.get_pointed] at hle
  exact ⟨hok, fun v hv => hle v _ (hdraw.pointed v hv)⟩

end Store

end ConstraintSolver
