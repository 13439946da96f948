import ConstraintSolver.Proofs.Sanity
import ConstraintSolver.Proofs.Vigilance

/-! # Arising — what holds of a store, however it has been used

    A store arises by any operations, with snapshots taken and restored in
    between, in any order and as often as one likes (`Arises`).  Its
    variables are handles that it has issued, and each constraint has an id.
    Nothing else is asked for: discarded snapshots may be restored, too.

    Such a store is in order: its tables are in step, a variable is watched
    by constraints that refer to it only, the trail can be undone, no change
    is unnoticed, and the agenda is consistent (`Arises.kempt`).

    A search does nothing to its store that could not be done without a
    search (`arises_step`).  So all this holds in the middle of a search, as
    well as before and after. -/

namespace ConstraintSolver

open Constraint

namespace Store

variable {s t : Store}

/-! ## Watchers -/

/-- The variables are watched by constraints which refer to them, and by no others. -/
def Attentive (s : Store) : Prop :=
  ∀ v ∈ s.allVariables, ∀ id ∈ s.watchersOf v,
    ∃ c, s.constraint? id = some c ∧ v ∈ c.occurrences

theorem attentive_extended (hatt : s.Attentive) (v : Variable) (d : Domain) :
    ({ s with domains := s.domains.extend v d } : Store).Attentive := by
  intro w hw
  rw [allVariables_extended] at hw
  exact hatt w hw

/-- Who watches whom is part of the model. -/
theorem SameModel.attentive (h : SameModel s t) (hatt : s.Attentive) : t.Attentive := by
  intro v hv id hid
  rw [h.allVariables] at hv
  rw [watchersOf, h.watchers] at hid
  rw [constraint?, h.constraints]
  exact hatt v hv id hid

/-- A new variable is watched by nobody. -/
theorem attentive_grown (hw : s.Wired) (hatt : s.Attentive) (d : Domain)
    (name : Option String) : (s.grown d name).Attentive := by
  intro v hv id hid
  rw [watchersOf, grown, Array.getElem?_push, hw.watchers] at hid
  rcases mem_allVariables_grown.mp hv with rfl | hv
  · -- nothing watches a variable that has just been declared
    have hlast : variableCount s = s.domains.cells.size := rfl
    rw [if_pos hlast] at hid
    cases hid
  · rw [if_neg (Nat.ne_of_lt (mem_allVariables.mp hv).2)] at hid
    exact hatt v hv id hid

/-- A new constraint watches its variables. -/
theorem attentive_enter (hw : s.Wired) (hatt : s.Attentive)
    (hroom : s.constraintCount < ConstraintId.limit) {c : Constraint}
    (hown : ∀ v ∈ c.occurrences, s.owns v = true) : (s.enter c).2.Attentive := by
  intro v hv id hid
  have hv' : v ∈ s.allVariables := hv
  have hindex : v.index < s.watchers.size := hw.watchers ▸ (mem_allVariables.mp hv').2
  rw [enter_eq] at hid ⊢
  rcases (mem_watched hindex).mp hid with hold | ⟨rfl, w, hscope, hsame⟩
  · obtain ⟨d, hd, hvd⟩ := hatt v hv' id hold
    refine ⟨d, ?_, hvd⟩
    have hlt := (Array.getElem?_eq_some_iff.mp hd).1
    rw [constraint?, Array.getElem?_push_lt hlt, ← hd, constraint?, Array.getElem?_eq_getElem hlt]
  · have hnew : (ConstraintId.ofIndex s.constraints.size).index = s.constraints.size :=
      Nat.mod_eq_of_lt hroom
    have hwv : w = v := by
      have hw' : s.domains.Owns w := by simpa [owns] using hown w (mem_scope.mp hscope)
      rw [← Domains.eq_of_owns hw', hsame, Domains.eq_of_owns (mem_allVariables.mp hv').1]
    refine ⟨c, ?_, hwv ▸ mem_scope.mp hscope⟩
    rw [constraint?, hnew, Array.getElem?_push_size]

/-! ## Stores in order -/

/-- The tables are in step, the watchers are those needed, the trail can be undone, and
    nothing is unnoticed. -/
structure Kempt (s : Store) : Prop extends Tidy s where
  wired : s.Wired
  attentive : s.Attentive
  numbered : s.Numbered
  stamped : s.domains.Stamped

/-- The empty store is in order. -/
theorem kempt_empty (number : Nat) (listensTo : Option Level) :
    (Store.empty number listensTo).Kempt :=
  ⟨⟨rfl, Agenda.consistent_empty⟩, (Declared.empty number listensTo).blank.wired,
    fun _ hv => absurd (mem_allVariables.mp hv).2 (Nat.not_lt_zero _), Nat.zero_le _,
    Domains.stamped_empty number⟩

/-- What has evolved from a store in order is in order if it is tidy. -/
theorem Kempt.evolves (h : s.Kempt) (hev : Evolves s t) (htidy : t.Tidy) : t.Kempt :=
  ⟨htidy, hev.wired h.wired, hev.toSameModel.attentive h.attentive, hev.numbered h.numbered,
    hev.retraces.stamped h.stamped⟩

/-- An operation that does not enter a constraint leaves the model as it is, or enlarges the
    store. -/
theorem Operates.model_cases (h : Operates s t) (hsame : t.constraints = s.constraints)
    (hst : s.domains.Stamped) :
    SameModel s t ∨ Enlarges s t := by
  have hsame_of : ∀ {u : Store}, u = s → SameModel s u := fun heq => heq ▸ .refl _
  cases h with
  | newInteger lower upper name => exact .inr (newInteger_enlarges s lower upper name)
  | newSparse values name => exact .inr (newSparse_enlarges s values name)
  | newBoolean name => exact .inr (newBoolean_enlarges s name)
  | extendDomain v lower upper => exact .inr (extendDomain_enlarges s v lower upper)
  | impose c =>
      -- a constraint that is not refused at once would be a new one
      have hsize : (s.enter c).2.propagate.2.constraints.size = s.constraints.size + 1 := by
        rw [(evolves_propagate _).constraints, enter_eq, Array.size_push]
      rcases s.impose_cases c with heq | ⟨_, _, heq | ⟨e, heq⟩⟩
      · exact .inl (hsame_of heq)
      · rw [← heq, hsame] at hsize
        omega
      · have hnoted : (s.impose c).2.constraints = (s.enter c).2.propagate.2.constraints := by
          rw [heq]
          rfl
        rw [← hnoted, hsame] at hsize
        omega
  | assign v value => exact .inl (evolves_assign s v value).toSameModel
  | removeValue v value => exact .inl (evolves_prune s v _).toSameModel
  | setLowerBound v bound => exact .inl (evolves_prune s v _).toSameModel
  | setUpperBound v bound => exact .inl (evolves_prune s v _).toSameModel
  | propagate => exact .inl (evolves_propagate s).toSameModel
  | search start session left => exact .inl (returned_of_session hst start session left).model

/-- An operation that enters no constraint leaves the store in order. -/
theorem Kempt.operates (h : s.Kempt) (hop : Operates s t)
    (hsame : t.constraints = s.constraints) : t.Kempt := by
  have htidy := hop.tidy h.stamped h.toTidy
  have hstamped := (hop.continues h.stamped).stamped
  have hnum : t.Numbered := by
    rw [Numbered, constraintCount, hsame]
    exact h.numbered
  rcases hop.model_cases hsame h.stamped with hmodel | _ | ⟨_, _, name⟩ | ⟨_, _, _, d⟩
  · exact ⟨htidy, hmodel.wired h.wired, hmodel.attentive h.attentive, hnum, hstamped⟩
  · exact h
  · exact ⟨htidy, wired_grown h.wired _ name, attentive_grown h.wired h.attentive _ name, hnum,
      hstamped⟩
  · exact ⟨htidy, wired_extended h.wired, attentive_extended h.attentive _ d, hnum, hstamped⟩

/-- Imposing a constraint over known variables leaves the store in order, as long as there is an
    id for it. -/
theorem Kempt.impose (h : s.Kempt) {c : Constraint} (hissued : ∀ v ∈ c.occurrences, s.Issued v)
    (hroom : s.constraintCount < ConstraintId.limit) : (s.impose c).2.Kempt := by
  have htidy := h.toTidy.impose c
  rcases s.impose_cases c with heq | ⟨howns, _, heq⟩
  · rw [heq]
    exact h
  · have hentered : (s.enter c).2.Kempt :=
      ⟨⟨h.quiet, h.agenda.enqueue _ _⟩, wired_enter h.wired fun v hv => hissued v hv (howns v hv),
        attentive_enter h.wired h.attentive hroom howns, numbered_enter hroom c, h.stamped⟩
    have hev := evolves_propagate (s.enter c).2
    rcases heq with heq | ⟨e, heq⟩
    · rw [heq] at htidy ⊢
      exact hentered.evolves hev htidy
    · rw [heq] at htidy ⊢
      exact hentered.evolves (hev.trans (evolves_note _ e)) htidy

/-- Any snapshot may be restored. -/
theorem Kempt.restore (h : s.Kempt) (saved : Snapshot) : (s.restore saved).2.Kempt := by
  have hmodel := sameModel_restore s saved
  refine ⟨h.toTidy.restore saved, hmodel.wired h.wired, hmodel.attentive h.attentive,
    hmodel.numbered h.numbered, ?_⟩
  rcases s.restore_cases saved with heq | ⟨_, hlt, heq⟩
  · rw [heq]
    exact h.stamped
  · rw [heq]
    exact (Domains.restored s.domains (Nat.le_of_lt hlt)).stamped h.stamped

/-! ## How stores arise -/

/-- The stores that arise by operations and snapshots, whichever snapshots are
    restored. -/
inductive Arises : Store → Prop
  | empty (number : Nat) (listensTo : Option Level) : Arises (.empty number listensTo)
  /-- Any operation that does not enter a constraint. -/
  | operated {s t : Store} (same : t.constraints = s.constraints) :
      Arises s → Operates s t → Arises t
  | imposed {s : Store} {c : Constraint} (issued : ∀ v ∈ c.occurrences, s.Issued v)
      (room : s.constraintCount < ConstraintId.limit) : Arises s → Arises (s.impose c).2
  | noted {s : Store} (e : Event) : Arises s → Arises (s.note e)
  | snapshot {s : Store} : Arises s → Arises s.snapshot.2
  | restored {s : Store} (saved : Snapshot) : Arises s → Arises (s.restore saved).2

/-- **EVERY STORE IS IN ORDER**, however it has been used. -/
theorem Arises.kempt (h : Arises s) : s.Kempt := by
  induction h with
  | empty number listensTo => exact kempt_empty number listensTo
  | operated same _ hop ih => exact ih.operates hop same
  | imposed issued room _ ih => exact ih.impose issued room
  | noted e _ ih => exact ih.evolves (evolves_note _ e) ⟨ih.quiet, ih.agenda⟩
  | snapshot _ ih =>
      exact ⟨⟨ih.quiet, ih.agenda⟩, ⟨ih.wired.declared, ih.wired.watched, ih.wired.watchers⟩,
        ih.attentive, ih.numbered, ih.stamped.checkpoint⟩
  | restored saved _ ih => exact ih.restore saved

/-- Enlarging a store enters no constraint. -/
theorem Enlarges.constraints (h : Enlarges s t) : t.constraints = s.constraints := by
  cases h <;> rfl

/-- What is reached while discarded snapshots are left alone is a case of this. -/
theorem Reached.arises {allowed : Store → Prop} {live : List Snapshot}
    (h : Reached allowed s live) : Arises s := by
  induction h with
  | empty number listensTo => exact .empty number listensTo
  | newInteger lower upper name _ ih =>
      exact .operated (newInteger_enlarges _ lower upper name).constraints ih (.newInteger ..)
  | newSparse values name _ ih =>
      exact .operated (newSparse_enlarges _ values name).constraints ih (.newSparse ..)
  | newBoolean name _ ih =>
      exact .operated (newBoolean_enlarges _ name).constraints ih (.newBoolean ..)
  | extendDomain v lower upper _ ih =>
      exact .operated (extendDomain_enlarges _ v lower upper).constraints ih (.extendDomain ..)
  | impose issued room _ ih => exact .imposed issued room ih
  | assign v value _ ih => exact .operated (evolves_assign _ v value).constraints ih (.assign ..)
  | removeValue v value _ ih =>
      exact .operated (evolves_prune _ v _).constraints ih (.removeValue ..)
  | setLowerBound v bound _ ih =>
      exact .operated (evolves_prune _ v _).constraints ih (.setLowerBound ..)
  | setUpperBound v bound _ ih =>
      exact .operated (evolves_prune _ v _).constraints ih (.setUpperBound ..)
  | propagate _ ih => exact .operated (evolves_propagate _).constraints ih (.propagate _)
  | snapshot _ _ ih => exact ih.snapshot
  | restore _ ih => exact ih.restored _
  | search _ start session left _ ih =>
      have hreturned := returned_of_session ih.kempt.stamped start session left
      exact .operated hreturned.model.constraints ih (.search start session left)

/-! ## In the middle of a search -/

theorem Arises.propagate (h : Arises s) : Arises s.propagate.2 :=
  .operated (evolves_propagate s).constraints h (.propagate s)

theorem Arises.assign (h : Arises s) (v : Variable) (value : Int) : Arises (s.assign v value).2 :=
  .operated (evolves_assign s v value).constraints h (.assign s v value)

theorem Arises.restoreOwned (h : Arises s) (saved : Snapshot) :
    Arises (s.restoreOwned saved).2 :=
  restoreOwned_snd s saved ▸ h.restored saved

theorem Arises.tryValue (h : Arises s) (v : Variable) (value : Int) :
    Arises (s.tryValue v value).2 := by
  have hassigned := h.assign v value
  rw [Store.tryValue]
  split
  · rename_i hassign
    rwa [hassign] at hassigned
  · rename_i t hassign
    rw [hassign] at hassigned
    have hpropagated := hassigned.propagate
    split
    · rename_i hprop
      rwa [hprop] at hpropagated
    · rename_i hprop
      rwa [hprop] at hpropagated

/-- Trying a value and going back leads to a store that arises, if completing does. -/
theorem Arises.trial {complete : Store → Except Misuse Bool × Store}
    (hcomplete : ∀ t, Arises t → Arises (complete t).2) (h : Arises s) (v : Variable)
    (value : Int) : Arises (Store.trial complete s v value).2 := by
  have htried := h.tryValue v value
  rw [Store.trial]
  split
  · rename_i t htry
    rw [htry] at htried
    exact hcomplete t htried
  · rename_i t htry
    rwa [htry] at htried

theorem Arises.anyCandidate {complete : Store → Except Misuse Bool × Store}
    (hcomplete : ∀ t, Arises t → Arises (complete t).2) (v : Variable) (candidates : Domain)
    (h : Arises s) : Arises (Store.anyCandidate complete v candidates s).2 := by
  -- on the candidates that are left; a trial that is undone leads to a store that arises
  have hback : ∀ {s t u : Store} {value : Int} {completed : Bool}
      {result : Except Misuse Unit}, Arises s →
      Store.trial complete s.snapshot.2 v value = (.ok completed, t) →
      t.restoreOwned s.snapshot.1 = (result, u) → Arises u := by
    intro s t u value completed result h htrial hrestore
    have htried := Arises.trial hcomplete h.snapshot v value
    rw [htrial] at htried
    have hrestored := htried.restoreOwned s.snapshot.1
    rwa [hrestore] at hrestored
  fun_induction Store.anyCandidate complete v candidates s with
  | case1 candidates s hmin => exact h
  | case2 candidates s value hmin saved s' hsaved rule t htrial =>
      cases hsaved
      have htried := Arises.trial hcomplete h.snapshot v value
      change Store.trial complete s.snapshot.2 v value = _ at htrial
      rwa [htrial] at htried
  | case3 candidates s value hmin saved s' hsaved completed t htrial rule u hrestore =>
      cases hsaved
      exact hback h htrial hrestore
  | case4 candidates s value hmin saved s' hsaved t u hrestore htrial =>
      cases hsaved
      exact hback h htrial hrestore
  | case5 candidates s value hmin saved s' hsaved completed t htrial u hrestore _ ih =>
      cases hsaved
      exact ih (hback h htrial hrestore)

/-- Looking for a completion leads to a store that arises. -/
theorem Arises.completes (depth : Nat) (h : Arises s) : Arises (s.completes depth).2 := by
  induction depth generalizing s with
  | zero => exact h
  | succ depth ih =>
      rw [Store.completes]
      split
      · exact h
      · exact h.anyCandidate (fun t ht => ih ht) _ _

/-- **THE COMPLETION CHECK** does nothing else either. -/
theorem Arises.hasCompletion (h : Arises s) : Arises s.hasCompletion.2 := h.completes _

end Store

namespace Search

open Store

variable {ρ τ : Type} {policy : Policy ρ} {rule : TerminationRule τ} {c : SearchControl ρ τ}
  {t : Store}

/-- The end of a search is a restored snapshot. -/
theorem arises_finish (c : SearchControl ρ τ) (h : Arises t) (status : SearchStatus) :
    Arises (finish ⟨c, t⟩ status).2.store := by
  cases hroot : c.root with
  | none =>
      simp only [finish, hroot]
      exact h.noted _
  | some root =>
      have hrestored := h.restoreOwned root
      cases hrestore : t.restoreOwned root with
      | mk result u =>
          rw [hrestore] at hrestored
          cases result with
          | error e => simpa only [finish, hroot, hrestore] using hrestored
          | ok _ =>
              simp only [finish, hroot, hrestore]
              exact hrestored.noted _

theorem arises_propagate (c : SearchControl ρ τ) (h : Arises t) :
    Arises (Search.propagate ⟨c, t⟩).store := by
  have hpropagated := h.propagate
  rw [Search.propagate]
  split
  · rename_i hprop
    rwa [hprop] at hpropagated
  · rename_i hprop
    rw [hprop] at hpropagated
    exact hpropagated.noted _

/-- Undoing trials restores snapshots. -/
theorem arises_undoTrial (stack : List ChoicePoint) (h : Arises t) :
    Arises (undoTrial t stack).2 := by
  induction stack generalizing t with
  | nil => exact h
  | cons choice older ih =>
      -- a choice point that is used up is followed by the next older one
      have hstep : ∀ {u : Store}, Arises u →
          Arises (if choice.remaining.isEmpty then undoTrial u older
            else (.ok ({ choice with saved := none } :: older), u)).2 := by
        intro u hu
        split
        · exact ih hu
        · exact hu
      cases hsaved : choice.saved with
      | none =>
          simp only [undoTrial, hsaved]
          exact hstep h
      | some saved =>
          have hrestored := h.restoreOwned saved
          cases hrestore : t.restoreOwned saved with
          | mk result u =>
              rw [hrestore] at hrestored
              cases result with
              | error e => simpa only [undoTrial, hsaved, hrestore] using hrestored
              | ok _ =>
                  simp only [undoTrial, hsaved, hrestore]
                  exact hstep hrestored

theorem arises_backtrack (c : SearchControl ρ τ) (h : Arises t) :
    Arises (Search.backtrack ⟨c, t⟩).2.store := by
  have hundone := arises_undoTrial c.stack h
  rw [Search.backtrack]
  split
  · rename_i hundo
    rwa [hundo] at hundone
  · rename_i hundo
    rw [hundo] at hundone
    exact arises_finish _ hundone _
  · rename_i hundo
    rwa [hundo] at hundone

/-- A trial is an assignment below a new snapshot. -/
theorem arises_branch (c : SearchControl ρ τ) (h : Arises t) :
    Arises (Search.branch policy rule ⟨c, t⟩).2.store := by
  rcases branch_cases policy rule c t with
    ⟨e, he⟩ | ⟨_, hback⟩ | ⟨choice, older, value, random, htries⟩
  · rwa [he]
  · rwa [hback]
  · have hassigned := (h.snapshot.noted
      (.decision choice.var value (older.length + 1))).assign choice.var value
    rw [htries.branch, decide_eq]
    split
    · rename_i hassign
      rwa [hassign] at hassigned
    · rename_i hassign
      rwa [hassign] at hassigned

theorem arises_report (c : SearchControl ρ τ) (h : Arises t) :
    Arises (Search.report ⟨c, t⟩).2.store := by
  cases hread : readSolution t c.goal.scope with
  | error e =>
      simp only [Search.report, hread]
      exact h
  | ok entries =>
      have hfinished := arises_finish (counted c)
        (h.noted (.solution (c.statistics.solutions + 1) ⟨entries⟩)) .solutionLimitReached
      rw [report_eq (x := ⟨entries⟩) hread]
      split
      · split
        · rename_i hfinish
          rwa [hfinish] at hfinished
        · rename_i hfinish
          rwa [hfinish] at hfinished
      · exact h.noted _

/-- Selecting reads the store, or looks for a completion. -/
theorem arises_select (c : SearchControl ρ τ) (h : Arises t) :
    Arises (Search.select policy ⟨c, t⟩).2.store := by
  have hchecked := h.hasCompletion
  rw [Search.select]
  split
  · exact h
  · split
    · exact h
    · exact h
  · split
    · rename_i hcheck
      rwa [hcheck] at hchecked
    · rename_i hcheck
      rw [hcheck] at hchecked
      exact arises_report c hchecked
    · rename_i hcheck
      rw [hcheck] at hchecked
      exact hchecked.noted _

theorem store_silently (r : Except Misuse Unit × Search ρ τ) :
    (silently r).2.store = r.2.store := by
  obtain ⟨result, s⟩ := r
  cases result <;> rfl

theorem arises_unlessStopped (c : SearchControl ρ τ) (h : Arises t)
    {go : Search ρ τ → Except Misuse (Option Solution) × Search ρ τ}
    (hgo : ∀ termination, Arises (go ⟨{ c with termination := termination }, t⟩).2.store) :
    Arises (unlessStopped rule ⟨c, t⟩ go).2.store := by
  rw [unlessStopped]
  split
  · rw [store_silently]
    exact arises_finish _ h _
  · exact hgo _

/-- **A STEP OF A SEARCH**, whatever comes of it, does nothing to the store that could
    not be done without a search. -/
theorem arises_step {s : Search ρ τ} (h : Arises s.store) :
    Arises (s.step policy rule).2.store := by
  obtain ⟨c, t⟩ := s
  rw [Search.step]
  split
  · exact arises_propagate c h
  · exact arises_unlessStopped c h fun _ => arises_select _ h
  · refine arises_unlessStopped c h fun _ => ?_
    rw [store_silently]
    exact arises_branch _ h
  · rw [store_silently]
    exact arises_backtrack c h
  · exact h

/-- Any number of steps leads to a store that arises. -/
theorem arises_run (steps : Nat) {s : Search ρ τ} (h : Arises s.store) :
    Arises (Search.run policy rule steps s).2.store := by
  induction steps generalizing s with
  | zero => exact h
  | succ steps ih =>
      have hstepped : Arises (s.step policy rule).2.store := arises_step h
      rw [Search.run]
      split
      · exact h
      · split
        · rename_i hstep
          rwa [hstep] at hstepped
        · rename_i hstep
          rwa [hstep] at hstepped
        · rename_i hstep
          rw [hstep] at hstepped
          exact ih hstepped

/-- Asking for the next solution leads to a store that arises. -/
theorem arises_next {s : Search ρ τ} (h : Arises s.store) :
    Arises (s.next policy rule).2.store :=
  arises_run s.control.patience h

theorem arises_summarize {s : Search ρ τ} (h : Arises s.store) : Arises s.summarize.2.store := by
  obtain ⟨c, t⟩ := s
  have hfinished := arises_finish c h .terminated
  rw [Search.summarize]
  split
  · exact h
  · split
    · rename_i hfinish
      rwa [hfinish] at hfinished
    · rename_i hfinish
      rwa [hfinish] at hfinished

theorem arises_begin (goal : SearchGoal) (random : ρ) (termination : τ) (h : Arises t) :
    Arises (begin goal random termination t).2.store := by
  have hsaved := (h.noted
    (.searchStarted goal.scope.length goal.allSolutions goal.limit)).snapshot
  rw [begin_eq goal random termination t rfl]
  split
  · exact arises_finish _ hsaved _
  · exact hsaved

/-- The store of a search that has been begun arises. -/
theorem arises_start {goal : SearchGoal} {random : ρ} {termination : τ} {begun : Search ρ τ}
    (h : Arises t) (hstart : start goal random termination t = .ok begun) :
    Arises begun.store := by
  have hwarned : Arises (if goal.scope.isEmpty then t.note .emptyScope else t) := by
    split
    · exact h.noted _
    · exact h
  have hbegun := arises_begin goal random termination hwarned
  rw [start] at hstart
  split at hstart
  · cases hstart
  · simp only at hstart
    split at hstart
    · cases hstart
    · rename_i hbegin
      cases hstart
      rwa [hbegin] at hbegun

/-- **A SESSION** has a store in its hands that could have come about without it. -/
theorem Session.arises {begun used : Search ρ τ} {reported : List Solution}
    (h : Session policy rule begun reported used) (hbegun : Arises begun.store) :
    Arises used.store := by
  induction h with
  | begun => exact hbegun
  | @next _ s _ _ _ hnext ih =>
      have hrun : Arises (s.next policy rule).2.store := arises_next ih
      rwa [hnext] at hrun
  | changed termination _ ih => exact ih
  | @summarized _ s _ _ _ hsummary ih =>
      have hended := arises_summarize ih
      rwa [hsummary] at hended

end Search

/-- **WHAT CAN BE OBSERVED**, between searches or in one, arises. -/
theorem Store.Observed.arises {allowed : Store → Prop} {s : Store} (h : Observed allowed s) :
    Arises s := by
  cases h with
  | reached h => exact h.arises
  | searching moment start session h =>
      exact session.arises (Search.arises_start h.arises start)

end ConstraintSolver
