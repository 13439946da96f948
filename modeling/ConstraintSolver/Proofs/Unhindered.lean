import ConstraintSolver.Proofs.Ending
import ConstraintSolver.Proofs.Muting

/-! # Unhindered — what a search would do if nothing stopped it

    A limit, the wish for just one solution, and a termination condition only
    decide when a search stops.  To see this, they are taken away, and the
    journal with them, which mentions the limit (`unhindered`).  What is left
    takes the same step as the search itself, as long as the search goes on
    (`accords_step`).  It finds the same solution in the step in which the
    search reaches its limit; only where the search is stopped by the
    condition, nothing can be said.

    The policy may look at the store as much as it likes, except at the
    journal (`Policy.Deaf`). -/

namespace ConstraintSolver

open Constraint Store

/-- The policy does not know what the store has told. -/
structure Policy.Deaf {ρ : Type} (policy : Policy ρ) : Prop where
  onVariable : ∀ (s : Store) (scope : List Variable),
    policy.chooseVariable s.muted scope = policy.chooseVariable s scope
  onValue : ∀ (s : Store) (v : Variable) (candidates : Domain) (random : ρ),
    policy.chooseValue s.muted v candidates random = policy.chooseValue s v candidates random

/-- The first unfixed variable does not depend on what has been told. -/
theorem VariableChoice.firstUnfixed_muted (s : Store) (vs : List Variable) :
    firstUnfixed s.muted vs = firstUnfixed s vs := by
  induction vs with
  | nil => rfl
  | cons v vs ih =>
      rw [firstUnfixed, firstUnfixed, ih]
      rfl

/-- The built-in policies do not listen. -/
theorem Policy.deaf_of {ρ : Type} [RandomSource ρ] (onVariable : VariableChoice)
    (onValue : ValueChoice) : (Policy.of onVariable onValue : Policy ρ).Deaf := by
  refine ⟨fun s scope => ?_, fun _ _ _ _ => rfl⟩
  cases onVariable with
  | largestDomain => rfl
  | smallestDomain => rfl
  | mostConstrained => rfl
  | inputOrder => exact VariableChoice.firstUnfixed_muted s scope

/-- The number of solutions after which a search stops, if there is one. -/
def SearchGoal.most (goal : SearchGoal) : Option Nat :=
  if goal.allSolutions then goal.limit else some (if goal.limit = some 0 then 0 else 1)

/-- As many solutions are enough. -/
def SearchGoal.Enough (goal : SearchGoal) (count : Nat) : Prop := ∃ k ∈ goal.most, k ≤ count

/-- **THE LIMIT** is reached by one more solution, exactly if the search stops there. -/
theorem SearchGoal.stops_iff {goal : SearchGoal} {count : Nat} (hfew : ¬ goal.Enough count) :
    (!goal.allSolutions || match goal.limit with
      | some limit => decide (limit ≤ count + 1)
      | none => false) = true ↔ goal.most = some (count + 1) := by
  obtain ⟨scope, all, limit⟩ := goal
  rw [Enough] at hfew
  cases all with
  | false =>
      -- not even one solution has been found yet
      simp only [most, Bool.false_eq_true, if_false, Option.mem_def, Option.some.injEq,
        exists_eq_left'] at hfew ⊢
      simp only [Bool.not_false, Bool.true_or, true_iff]
      split at hfew <;> split <;> simp_all
  | true =>
      cases limit with
      | none => simp [most]
      | some limit =>
          simp only [most, if_true, Option.mem_def, Option.some.injEq, exists_eq_left']
            at hfew ⊢
          simp only [Bool.not_true, Bool.false_or, decide_eq_true_eq]
          omega

/-- The condition that never stops a search. -/
def TerminationRule.never : TerminationRule Unit := ⟨fun _ => (false, ()), fun _ => ()⟩

namespace Search

variable {ρ τ : Type}

/-- **THE SEARCH UNHINDERED**: for all solutions, without a limit and a condition, and with
    no one listening. -/
def unhindered (s : Search ρ τ) : Search ρ Unit :=
  ⟨{ goal := ⟨s.control.goal.scope, true, none⟩
     random := s.control.random
     termination := ()
     stack := s.control.stack
     phase := s.control.phase
     root := s.control.root
     statistics := s.control.statistics
     status := s.control.status
     initialPropagations := s.control.initialPropagations
     patience := s.control.patience }, s.store.muted⟩

/-- An outcome, and the search unhindered. -/
def unhinder {α : Type} (r : α × Search ρ τ) : α × Search ρ Unit := (r.1, r.2.unhindered)

@[simp] theorem unhinder_mk {α : Type} (result : α) (s : Search ρ τ) :
    unhinder (result, s) = (result, s.unhindered) := rfl

variable {s t : Search ρ τ} {policy : Policy ρ} {rule : TerminationRule τ}

/-! ## Functions without limits -/

/-- A search that propagates does so unhindered, too. -/
theorem propagate_unhindered (s : Search ρ τ) :
    s.unhindered.propagate = s.propagate.unhindered := by
  obtain ⟨c, store⟩ := s
  rw [Search.propagate, Search.propagate]
  simp only [unhindered]
  rw [propagate_muted]
  rcases store.propagate with ⟨_ | _, u⟩ <;> rfl

/-- A search that ends does so unhindered, too. -/
theorem finish_unhindered (s : Search ρ τ) (status : SearchStatus) :
    finish s.unhindered status = unhinder (finish s status) := by
  obtain ⟨c, store⟩ := s
  rw [finish, finish]
  simp only [unhindered]
  cases hroot : c.root with
  | none => rfl
  | some root =>
      simp only
      rw [restoreOwned_muted]
      rcases store.restoreOwned root with ⟨_ | _, u⟩ <;> simp only [mute_mk, unhinder_mk] <;>
        simp only [unhindered, hroot, muted_note, note_muted]
      rfl

/-- Undoing trials does not depend on what has been told. -/
theorem undoTrial_muted (store : Store) (stack : List ChoicePoint) :
    undoTrial store.muted stack = mute (undoTrial store stack) := by
  induction stack generalizing store with
  | nil => rfl
  | cons choice older ih =>
      rw [undoTrial, undoTrial]
      cases choice.saved with
      | none =>
          simp only
          split
          · exact ih store
          · rfl
      | some saved =>
          simp only
          rw [restoreOwned_muted]
          rcases store.restoreOwned saved with ⟨_ | _, u⟩
          · rfl
          · simp only [mute_mk]
            split
            · exact ih u
            · rfl

/-- A search that goes back does so unhindered, too. -/
theorem backtrack_unhindered (s : Search ρ τ) :
    s.unhindered.backtrack = unhinder s.backtrack := by
  obtain ⟨c, store⟩ := s
  rw [Search.backtrack, Search.backtrack]
  simp only [unhindered]
  rw [undoTrial_muted]
  rcases undoTrial store c.stack with ⟨_ | (_ | ⟨choice, older⟩), u⟩
  · rfl
  · exact finish_unhindered ⟨{ c with stack := [] }, u⟩ .complete
  · rfl

/-- A decision does not depend on the condition that is told of it. -/
theorem decide_unhindered (s : Search ρ τ) (choice : ChoicePoint) (older : List ChoicePoint)
    (value : Int) :
    Search.decide .never s.unhindered choice older value =
      (Search.decide rule s choice older value).unhindered := by
  obtain ⟨c, store⟩ := s
  rw [Search.decide, Search.decide]
  simp only [unhindered]
  rw [snapshot_muted]
  simp only [mute, note_muted]
  have hassign := assign_muted (store.snapshot.2.note
    (.decision choice.var value (older.length + 1))) choice.var value
  rw [muted_note] at hassign
  rw [hassign]
  rcases ((store.snapshot.2.note (.decision choice.var value (older.length + 1))).assign
    choice.var value) with ⟨_ | _, u⟩ <;> rfl

variable (rule) in
/-- A search that branches tries the same candidate unhindered. -/
theorem branch_unhindered (hdeaf : policy.Deaf) (s : Search ρ τ) :
    Search.branch policy .never s.unhindered = unhinder (Search.branch policy rule s) := by
  obtain ⟨⟨goal, random, termination, stack, phase, root, statistics, status, runs, patience⟩,
    store⟩ := s
  rw [Search.branch, Search.branch]
  cases stack with
  | nil => rfl
  | cons choice older =>
      simp only [unhindered]
      split
      · rfl
      · split
        · rfl
        -- the policy does not hear what the search has told
        · rw [hdeaf.onValue]
          rcases policy.chooseValue store choice.var choice.remaining random with
            _ | ⟨value, rest⟩
          · rfl
          · simp only
            split
            · exact congrArg (Prod.mk _) (decide_unhindered ⟨⟨goal, rest, termination,
                choice :: older, phase, root, statistics, status, runs, patience⟩, store⟩ choice
                older value)
            · rfl

/-! ## Steps side by side -/

/-- After a step that both searches take, the limit has not been reached, and if the
    search is over it is complete. -/
structure Alongside (c : SearchControl ρ τ) (found : Option Solution) (c' : SearchControl ρ τ) :
    Prop where
  solutions : c'.statistics.solutions = c.statistics.solutions + found.toList.length
  few : ¬ c.goal.Enough c'.statistics.solutions
  ended : c'.phase = .exhausted → c'.status = some .complete

/-- **HOW A STEP COMPARES** with that of the search unhindered, if the condition says that
    the search has to stop, or does not. -/
inductive Accords (stopping : Prop) (c : SearchControl ρ τ) :
    Except Misuse (Option Solution) × Search ρ τ →
      Except Misuse (Option Solution) × Search ρ Unit → Prop
  /-- Both do the same. -/
  | along {r : Except Misuse (Option Solution) × Search ρ τ}
      (going : ∀ found t, r = (.ok found, t) → Alongside c found t.control) :
      Accords stopping c r (unhinder r)
  /-- The search finds the last solution that was asked for, and the other one goes
      on. -/
  | limited {x : Solution} {t : Search ρ τ} {u : Search ρ Unit}
      (phase : t.control.phase = .exhausted)
      (status : t.control.status = some .solutionLimitReached)
      (solutions : t.control.statistics.solutions = c.statistics.solutions + 1)
      (most : c.goal.most = some t.control.statistics.solutions) :
      Accords stopping c (.ok (some x), t) (.ok (some x), u)
  /-- The search is stopped. -/
  | stopped {t : Search ρ τ} {r : Except Misuse (Option Solution) × Search ρ Unit}
      (phase : t.control.phase = .exhausted) (status : t.control.status = some .terminated)
      (solutions : t.control.statistics.solutions = c.statistics.solutions)
      (stops : stopping) : Accords stopping c (.ok none, t) r

variable {c c' : SearchControl ρ τ} {store : Store} {base : Store} {stopping : Prop}

/-- Asking the condition before a step does not bring the searches apart. -/
theorem Accords.since {r : Except Misuse (Option Solution) × Search ρ τ}
    {r' : Except Misuse (Option Solution) × Search ρ Unit} (h : Accords False c' r r')
    (hgoal : c'.goal = c.goal) (hstatistics : c'.statistics = c.statistics) :
    Accords stopping c r r' := by
  cases h with
  | along going =>
      refine .along fun found t heq => ?_
      obtain ⟨hsolutions, hfew, hended⟩ := going found t heq
      exact ⟨hstatistics ▸ hsolutions, hgoal ▸ hfew, hended⟩
  | limited phase status solutions most =>
      exact .limited phase status (hstatistics ▸ solutions) (hgoal ▸ most)
  | stopped phase status solutions stops => exact stops.elim

/-- Unhindered, a search reports the same solution, and goes on. -/
theorem accords_report (amid : Amid base ⟨c, store⟩)
    (ladder : Climbs base store.domains c.stack)
    (hfew : ¬ c.goal.Enough c.statistics.solutions) :
    Accords stopping c (Search.report ⟨c, store⟩) (Search.report (unhindered ⟨c, store⟩)) := by
  cases hread : readSolution store c.goal.scope with
  | error e =>
      have hread' : readSolution store.muted c.goal.scope = .error e := by
        rw [readSolution_muted, hread]
      have hreport : Search.report ⟨c, store⟩ = (.error e, ⟨c, store⟩) := by
        rw [Search.report]
        simp only [hread]
      have hreport' : Search.report (unhindered ⟨c, store⟩) = unhinder (.error e, ⟨c, store⟩) := by
        rw [Search.report]
        simp only [unhindered, hread']
        rfl
      rw [hreport, hreport']
      exact .along (by rintro _ _ ⟨⟩)
  | ok entries =>
      have hread' : readSolution store.muted (unhindered ⟨c, store⟩).control.goal.scope =
          .ok (⟨entries⟩ : Solution).entries := by
        rw [← hread]
        exact readSolution_muted store c.goal.scope
      have hnever : (counted (unhindered ⟨c, store⟩).control).limitReached = false := rfl
      have hreport' : Search.report (unhindered ⟨c, store⟩) =
          unhinder (.ok (some ⟨entries⟩), ⟨(counted c).goTo .backtracking,
            store.note (.solution (c.statistics.solutions + 1) ⟨entries⟩)⟩) := by
        refine (report_eq hread').trans ?_
        rw [hnever]
        rfl
      rw [hreport', report_eq (x := ⟨entries⟩) hread]
      have hstops := SearchGoal.stops_iff hfew
      -- the one is finished here, while the other goes on
      by_cases hstop : (!c.goal.allSolutions || (counted c).limitReached) = true
      · rw [if_pos hstop]
        have hmodel := amid.model.trans
          (evolves_note store (.solution (c.statistics.solutions + 1) ⟨entries⟩)).toSameModel
        obtain ⟨s, hs, _⟩ := finish_standing (c := counted c)
          (amid.of_store hmodel amid.stamped rfl rfl) ladder .solutionLimitReached
        obtain ⟨hphase, hstatus, hsolutions, _⟩ := finish_ok hs
        rw [hs]
        exact .limited hphase hstatus hsolutions (hsolutions ▸ hstops.mp hstop)
      · rw [if_neg hstop]
        refine .along fun found t h => ?_
        cases h
        refine ⟨rfl, ?_, by rintro ⟨⟩⟩
        rintro ⟨k, hk, hle⟩
        refine hstop (hstops.mpr ?_)
        -- the limit is reached by this solution, since it was not before
        have hlt : ¬ k ≤ c.statistics.solutions := fun h => hfew ⟨k, hk, h⟩
        have hle' : k ≤ c.statistics.solutions + 1 := hle
        rw [hk]
        exact congrArg some (by omega)

/-- Unhindered, a search selects the same variable, or reports the same solution. -/
theorem accords_select (hdeaf : policy.Deaf) (amid : Amid base ⟨c, store⟩)
    (ladder : Climbs base store.domains c.stack)
    (hfew : ¬ c.goal.Enough c.statistics.solutions) :
    Accords stopping c (Search.select policy ⟨c, store⟩)
      (Search.select policy (unhindered ⟨c, store⟩)) := by
  obtain ⟨held, u, hcomplete, hev, _⟩ := undoes_hasCompletion store amid.stamped
  have hcomplete' : store.muted.hasCompletion = (.ok held, u.muted) := by
    rw [hasCompletion_muted, hcomplete, mute_mk]
  rw [Search.select, Search.select]
  simp only [unhindered, hdeaf.onVariable, hcomplete, hcomplete']
  cases policy.chooseVariable store c.goal.scope with
  | error e => exact .along (r := (.error e, ⟨c, store⟩)) (by rintro _ _ ⟨⟩)
  | ok chosen =>
      cases chosen with
      | some v =>
          cases hv : store.owns v with
          | true =>
              simp only [owns_muted, hv, if_true]
              refine .along (r := (.ok none, ⟨c.opened v (store.domain v), store⟩)) fun _ _ h => ?_
              cases h
              exact ⟨rfl, hfew, by rintro ⟨⟩⟩
          | false =>
              simp only [owns_muted, hv, Bool.false_eq_true, if_false]
              exact .along (r := (.error (.foreignVariable v store.number), ⟨c, store⟩))
                (by rintro _ _ ⟨⟩)
      | none =>
          cases held with
          | true =>
              have hmodel := amid.model.trans hev.toSameModel
              have hst := hev.retraces.stamped amid.stamped
              exact accords_report (amid.of_store hmodel hst rfl rfl)
                (ladder.retraces amid.stamped hev.retraces).1 hfew
          | false =>
              refine .along (r := (.ok none, ⟨c.failed, u.note .noCompletion⟩)) fun _ _ h => ?_
              cases h
              exact ⟨rfl, hfew, by rintro ⟨⟩⟩

/-- A search that is asked to stop can be stopped, and any other goes on. -/
theorem accords_unlessStopped (amid : Amid base ⟨c, store⟩) {stack : List ChoicePoint}
    (ladder : Climbs base store.domains stack)
    {go : Search ρ τ → Except Misuse (Option Solution) × Search ρ τ}
    {go' : Search ρ Unit → Except Misuse (Option Solution) × Search ρ Unit}
    (hgo : ∀ termination, Accords False c (go ⟨{ c with termination := termination }, store⟩)
      (go' (unhindered ⟨c, store⟩))) :
    Accords ((rule.shouldStop c.termination).1 = true) c (unlessStopped rule ⟨c, store⟩ go)
      (unlessStopped .never (unhindered ⟨c, store⟩) go') := by
  rw [unlessStopped]
  cases hstop : rule.shouldStop c.termination with
  | mk stop termination =>
      cases stop with
      | true =>
          obtain ⟨s, hs, _⟩ := finish_standing (amid.changed termination) ladder .terminated
          obtain ⟨hphase, hstatus, hsolutions, _⟩ := finish_ok hs
          simp only [hs]
          exact .stopped hphase hstatus hsolutions trivial
      | false => exact (hgo termination).since rfl rfl

theorem accords_silently {r : Except Misuse Unit × Search ρ τ}
    (hfew : ¬ c.goal.Enough c.statistics.solutions)
    (hsolutions : ∀ t, r = (.ok (), t) →
      t.control.statistics.solutions = c.statistics.solutions ∧
        (t.control.phase = .exhausted → t.control.status = some .complete)) :
    Accords stopping c (silently r) (silently (unhinder r)) := by
  obtain ⟨result, t⟩ := r
  cases result with
  | error e => exact .along (r := (.error e, t)) fun _ _ h => nomatch h
  | ok _ =>
      refine .along (r := (.ok none, t)) fun found u h => ?_
      cases h
      obtain ⟨heq, hended⟩ := hsolutions t rfl
      exact ⟨heq, heq ▸ hfew, hended⟩

/-- A search that branches is not over, and has found no solution. -/
theorem branch_going (h : Search.branch policy rule ⟨c, store⟩ = (.ok (), t)) :
    t.control.statistics.solutions = c.statistics.solutions ∧ t.control.phase ≠ .exhausted := by
  rcases branch_ok h with ⟨_, rfl⟩ | ⟨choice, older, value, random, _, rfl⟩
  · exact ⟨rfl, by rintro ⟨⟩⟩
  · rw [decide_eq]
    split
    · exact ⟨rfl, by rintro ⟨⟩⟩
    · exact ⟨rfl, by rintro ⟨⟩⟩

/-- A search that goes back has found no solution, and is complete if it is over. -/
theorem backtrack_going (h : Search.backtrack ⟨c, store⟩ = (.ok (), t)) :
    t.control.statistics.solutions = c.statistics.solutions ∧
      (t.control.phase = .exhausted → t.control.status = some .complete) := by
  rw [Search.backtrack] at h
  split at h
  · cases h
  · obtain ⟨_, hstatus, hsolutions, _⟩ := finish_ok h
    exact ⟨hsolutions, fun _ => hstatus⟩
  · cases h
    exact ⟨rfl, by rintro ⟨⟩⟩

variable (rule) in
/-- **IN STEP**: until the search stops, it does what it would do unhindered. -/
theorem accords_step (hdeaf : policy.Deaf) (h : Standing base s)
    (hgoing : s.control.phase ≠ .exhausted)
    (hfew : ¬ s.control.goal.Enough s.control.statistics.solutions) :
    Accords ((rule.shouldStop s.control.termination).1 = true) s.control (s.step policy rule)
      (s.unhindered.step policy .never) := by
  obtain ⟨c, store⟩ := s
  have hphase : (unhindered ⟨c, store⟩).control.phase = c.phase := rfl
  rw [Search.step, Search.step, hphase]
  cases h with
  | moving phase amid ladder =>
      rcases phase with phase | phase
      · rw [phase]
        simp only [propagate_unhindered]
        refine .along (r := (.ok none, Search.propagate ⟨c, store⟩)) fun _ _ h => ?_
        cases h
        rw [Search.propagate]
        split
        · exact ⟨rfl, hfew, by rintro ⟨⟩⟩
        · exact ⟨rfl, hfew, by rintro ⟨⟩⟩
      · rw [phase]
        simp only [backtrack_unhindered]
        exact accords_silently hfew fun t ht => backtrack_going ht
  | selecting phase amid ladder sane =>
      rw [phase]
      refine accords_unlessStopped amid ladder fun termination => ?_
      exact (accords_select hdeaf (amid.changed termination) ladder hfew).since rfl rfl
  | branching phase amid stack untried ladder sane =>
      rw [phase]
      refine accords_unlessStopped amid ladder fun termination => ?_
      have hbranch := branch_unhindered rule hdeaf
        ⟨{ c with termination := termination }, store⟩
      change Accords False c _ (silently (Search.branch policy .never
        (unhindered ⟨{ c with termination := termination }, store⟩)))
      rw [hbranch]
      refine accords_silently hfew fun t ht => ?_
      obtain ⟨hsolutions, hphase⟩ := branch_going ht
      exact ⟨hsolutions, fun h => absurd h hphase⟩
  | exhausted phase root ended returned => exact absurd phase hgoing

end Search

end ConstraintSolver
