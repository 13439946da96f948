import ConstraintSolver.Proofs.Leaving
import ConstraintSolver.Proofs.Lexicographic
import ConstraintSolver.Proofs.Safety

/-! # Guards — what the assertions of a search rely on

    When a value is to be tried, the newest choice point has candidates, all
    of them values which its variable still has, and it does not remember a
    trial (`candidateChart`, `Standing`).  So whatever candidate is chosen,
    the store accepts it.  What the choice points below remember, and what the
    search itself remembers, lies deeper and deeper below the present state
    (`Unwinds`), so each of it can be restored in turn.

    As no step of a secure search breaks a rule, no assertion fails in any
    run (`search_never_breaks_a_rule`). -/

namespace ConstraintSolver

open Constraint Store

/-! ## Candidates -/

/-- The candidates of a choice point are values of its variable, which is in the scope. -/
def candidateChart (scope : List Variable) : Chart where
  place _ := True
  choice D choice := choice.remaining ≤ D.get choice.var ∧ choice.var ∈ scope
  left _ _ := True

/-- The chart of the candidates is right about a search with a careful policy. -/
theorem candidateChart_right {ρ : Type} {policy : Policy ρ} (hcareful : policy.Careful)
    {base : Store} {scope : List Variable} (howns : ∀ v ∈ scope, base.owns v = true) :
    (candidateChart scope).Right policy base scope where
  propagated _ _ := True.intro
  opened {t v} model _ chosen := by
    -- variables stay owned, as the search does not change the shape of the domains
    have howns' : ∀ w ∈ scope, t.owns w = true := by
      intro w hw
      have hown := howns w hw
      rw [owns, decide_eq_true_eq] at hown ⊢
      exact hown.trans model.shape.1.symm
    rcases hcareful.onVariable t scope howns' with ⟨hnone, _⟩ | ⟨w, hw, hsome⟩
    · cases chosen.symm.trans hnone
    · cases chosen.symm.trans hsome
      exact ⟨le_refl _, hw⟩
  resettled {D E choice choice'} known hget _ hvar hle := by
    refine ⟨?_, hvar ▸ known.2⟩
    rw [hvar, hget]
    exact hle.trans known.1
  tried _ _ := True.intro
  shrunk _ _ := True.intro
  dropped _ := True.intro
  split _ _ _ _ := True.intro
  reported _ _ := True.intro

namespace Search

/-! ## The way back -/

/-- What the choice points remember lies deeper and deeper below the present state, and what
    was remembered at the beginning lies below all of it. -/
def Unwinds (number : Nat) (root : Snapshot) : Nat → List ChoicePoint → Prop
  | depth, [] => root.store = number ∧ root.depth < depth
  | depth, choice :: older =>
      match choice.saved with
      | some saved =>
          saved.store = number ∧ saved.depth < depth ∧ Unwinds number root saved.depth older
      | none => Unwinds number root depth older

theorem unwinds_of_ladder {base : Store} {P : Domains → ChoicePoint → Prop} {D : Domains}
    {stack : List ChoicePoint} (h : Ladder base P D stack) :
    Unwinds base.number base.snapshot.1 D.depth stack := by
  induction h with
  | ground depth back => exact ⟨rfl, depth ▸ Nat.lt_succ_self _⟩
  | @rung D choice older saved taken number sane depth known below ih =>
      have hdepth : (D.restore saved.depth).depth = saved.depth :=
        (Domains.restored D (Nat.le_of_lt (depth ▸ Nat.lt_succ_self _))).depth
      rw [hdepth] at ih
      simp only [Unwinds, taken]
      exact ⟨number, depth ▸ Nat.lt_succ_self _, ih⟩

/-! ## What is reported -/

variable {ρ τ : Type} {policy : Policy ρ} {rule : TerminationRule τ} {base t : Store}
  {goal : SearchGoal} {s : Search ρ τ} {reported : List Solution} {opened : Nat}

/-- A solution that is read has an entry for every variable of the scope. -/
theorem entries_of_read {scope : List Variable} {entries : List Assigned}
    (h : readSolution t scope = .ok entries) :
    ∀ v ∈ scope, ∃ value, (t.domain v).fixedValue? = some value ∧
      ⟨v, t.name v, value⟩ ∈ entries := by
  induction scope generalizing entries with
  | nil => exact fun v hv => nomatch hv
  | cons v scope ih =>
      rw [readSolution] at h
      split at h
      · cases h
      · rename_i value hvalue
        split at h
        · cases h
        · rename_i rest hrest
          cases h
          refine List.forall_mem_cons.mpr ⟨⟨value, hvalue, List.mem_cons_self⟩, fun w hw => ?_⟩
          obtain ⟨x, hx, hmem⟩ := ih hrest w hw
          exact ⟨x, hx, List.mem_cons_of_mem _ hmem⟩

/-- A step finds a solution only where all of the scope is fixed. -/
theorem entries_of_step (hwaning : Waning base (largestSize base) base.variableCount s)
    {x : Solution} {u : Search ρ τ} (hstep : s.step policy rule = (.ok (some x), u)) :
    ∀ v ∈ s.control.goal.scope, ∃ value, (s.store.domain v).fixedValue? = some value ∧
      ⟨v, s.store.name v, value⟩ ∈ x.entries := by
  -- looking for a completion has not moved the store
  have hread : ∀ {c : SearchControl ρ τ} {t w : Store} {x : Solution}, c.phase = .selecting →
      Waning base (largestSize base) base.variableCount ⟨c, t⟩ →
      t.hasCompletion = (.ok true, w) → readSolution w c.goal.scope = .ok x.entries →
      ∀ v ∈ c.goal.scope, ∃ value, (t.domain v).fixedValue? = some value ∧
        ⟨v, t.name v, value⟩ ∈ x.entries := by
    intro c t w x phase hwaning check read v hv
    obtain ⟨value, hvalue, hmem⟩ := entries_of_read read v hv
    obtain ⟨amid, drained⟩ := hwaning.at_selecting phase
    obtain ⟨w', hcheck, hunmoved⟩ := (Alike.refl t).hasCompletion drained amid.stamped
    obtain rfl : w = w' := congrArg Prod.snd (check.symm.trans hcheck)
    rw [domain, hunmoved.domains] at hvalue
    rw [name, hunmoved.names] at hmem
    exact ⟨value, hvalue, hmem⟩
  generalize hfound : some x = found at hstep
  cases step_moves hstep with
  | reported phase _ check read =>
      cases hfound
      exact hread phase hwaning check read
  | reportedLast phase _ check read =>
      cases hfound
      exact hread phase hwaning check read
  | _ => cases hfound

/-! ## Guards -/

/-- A search on its course stands on the snapshots it has taken. -/
theorem Course.standing {begun : Search ρ τ} (hbegun : Begun base goal begun)
    (h : Course policy rule begun reported opened s) : Standing base s := by
  induction h with
  | begun => exact hbegun.standing
  | moved _ move ih => exact ih.step move
  | changed termination _ ih => exact ih.changed termination
  | summarized _ hsummary ih => exact ih.summarize hsummary

/-- **NO ASSERTION FAILS** in a search that has got here. -/
structure Guarded (policy : Policy ρ) (rule : TerminationRule τ) (s : Search ρ τ) : Prop where
  /-- No rule is broken by the next step, by any number of steps, by ending the search, and
      by giving it up. -/
  step : ∃ found t, s.step policy rule = (.ok found, t)
  run : ∀ steps, ∃ answer t, Search.run policy rule steps s = (.ok answer, t)
  summary : ∃ summary t, s.summarize = (.ok summary, t)
  released : ∃ u, s.release = (.ok (), u)
  /-- Where a value is tried, the choice point has candidates and does not remember a trial;
      one of the candidates is chosen, and the store accepts it. -/
  trial : s.control.phase = .branching → ∃ choice older value random u,
    s.control.stack = choice :: older ∧ choice.saved = none ∧ choice.remaining.isEmpty = false ∧
      policy.chooseValue s.store choice.var choice.remaining s.control.random =
        .ok (value, random) ∧
      value ∈ choice.remaining ∧
      (s.store.snapshot.2.note (.decision choice.var value (older.length + 1))).assign choice.var
        value = (.ok (), u)
  /-- All that is remembered lies below the present state, and can be restored in turn. -/
  back : s.control.phase ≠ .exhausted → ∃ root, s.control.root = some root ∧
    Unwinds s.store.number root s.store.depth s.control.stack
  /-- Where a solution is found, all of the scope is fixed, and in the solution. -/
  complete : ∀ x t, s.step policy rule = (.ok (some x), t) → ∀ v ∈ s.control.goal.scope,
    ∃ value, (s.store.domain v).fixedValue? = some value ∧ ⟨v, s.store.name v, value⟩ ∈ x.entries

/-- While the search is going, every snapshot it may restore lies below the present depth. -/
theorem Standing.unwinds (h : Standing base s) (hgoing : s.control.phase ≠ .exhausted) :
    ∃ root, s.control.root = some root ∧
      Unwinds s.store.number root s.store.depth s.control.stack := by
  have hunwinds : ∀ {stack}, Amid base s → Climbs base s.store.domains stack →
      Unwinds s.store.number base.snapshot.1 s.store.depth stack :=
    fun amid ladder => amid.model.number ▸ unwinds_of_ladder ladder
  cases h with
  | moving phase amid ladder => exact ⟨_, amid.root, hunwinds amid ladder⟩
  | selecting phase amid ladder sane => exact ⟨_, amid.root, hunwinds amid ladder⟩
  | branching phase amid stack untried ladder sane =>
      refine ⟨_, amid.root, ?_⟩
      rw [stack]
      simp only [Unwinds, untried]
      exact hunwinds amid ladder
  | exhausted phase root ended returned => exact absurd phase hgoing

/-- Where a value is to be tried, the store accepts whatever candidate is chosen. -/
theorem Charted.trial (h : Charted (candidateChart goal.scope) base goal reported s)
    (hcared : Cared policy base goal.scope) (hoffers : Offers s)
    (hphase : s.control.phase = .branching) :
    ∃ choice older value random u,
      s.control.stack = choice :: older ∧ choice.saved = none ∧ choice.remaining.isEmpty = false ∧
        policy.chooseValue s.store choice.var choice.remaining s.control.random =
          .ok (value, random) ∧
        value ∈ choice.remaining ∧
        (s.store.snapshot.2.note (.decision choice.var value (older.length + 1))).assign choice.var
          value = (.ok (), u) := by
  obtain ⟨choice, older, hstack, amid, _, _, hknown, hsane, _⟩ := h.at_branching hphase
  obtain ⟨_, _, hstack', huntried, hleft⟩ := hoffers hphase
  cases hstack.symm.trans hstack'
  obtain ⟨value, random, hchosen, hmem⟩ :=
    hcared.careful.onValue s.store choice.var choice.remaining s.control.random hleft
  have hown : s.store.owns choice.var = true := by
    have hbase := hcared.owned choice.var hknown.2
    rw [owns, decide_eq_true_eq] at hbase ⊢
    exact hbase.trans amid.model.shape.1.symm
  -- remembering the state and telling the decision change neither domains nor failure
  have hassign := assign_succeeds
    (s := s.store.snapshot.2.note (.decision choice.var value (older.length + 1)))
    hown (hknown.1 value hmem) hsane
  exact ⟨choice, older, value, random, _, hstack, huntried, hleft, hchosen, hmem,
    Prod.ext hassign rfl⟩

/-- **GUARDED**: at every moment of its course, a search breaks no rule in whatever it does
    next. -/
theorem Course.guarded {begun : Search ρ τ} (hcared : Cared policy base goal.scope)
    (hbegun : Begun base goal begun) (hsecure : Secure base goal begun)
    (h : Course policy rule begun reported opened s) : Guarded policy rule s := by
  have hsafe := h.secure hcared hsecure
  have hstanding := h.standing hbegun
  have hcharted := h.charted (candidateChart_right hcared.careful hcared.owned)
    (hbegun.charted True.intro True.intro)
  obtain ⟨found, t, hstep, _⟩ := hsafe.step rule hcared
  obtain ⟨summary, u, hsummary, _⟩ := hstanding.summarizes
  refine ⟨⟨found, t, hstep⟩, fun steps => ?_, ⟨summary, u, hsummary⟩, ?_,
    hcharted.trial hcared hsafe.offers, hstanding.unwinds,
    fun x t hfound => entries_of_step hsafe.waning hfound⟩
  · obtain ⟨answer, t, hrun, _⟩ := hsafe.run rule hcared steps
    exact ⟨answer, t, hrun⟩
  · obtain ⟨u, hu, _⟩ := hstanding.release
    exact ⟨u, hu⟩

/-- Asking for solutions until there are no more goes well, too. -/
theorem Course.collects {σ : Type} {begun : Search ρ τ} (hcared : Cared policy base goal.scope)
    (hsecure : Secure base goal begun) (listen : Solution → σ × τ → σ × τ) (solutions : Nat)
    (heard : σ) (h : Course policy rule begun reported opened s) :
    ∃ heard' reported' opened' t, collect policy rule listen solutions s heard = (.ok heard', t) ∧
      Course policy rule begun reported' opened' t := by
  induction solutions generalizing s reported opened heard with
  | zero => exact ⟨heard, reported, opened, s, rfl, h⟩
  | succ solutions ih =>
      obtain ⟨answer, t, hrun, _⟩ := (h.secure hcared hsecure).run rule hcared
        s.control.patience
      have hnext : s.next policy rule = (.ok answer, t) := hrun
      obtain ⟨opened', ht⟩ := h.run hrun
      rw [Search.collect, hnext]
      cases answer with
      | solution x => exact ih _ (ht.changed (listen x (heard, t.control.termination)).2)
      | finished => exact ⟨heard, _, _, t, rfl, ht⟩
      | unsatisfiable => exact ⟨heard, _, _, t, rfl, ht⟩
      | unknown => exact ⟨heard, _, _, t, rfl, ht⟩

/-- **NO SEARCH BREAKS A RULE**, in any store that came about without restoring a discarded
    snapshot, whether it has failed or not and whatever waits in it, over any variables of it,
    with built-in choices and any source of random numbers that draws below the given bound.
    Whatever it is asked for, and whatever stops it: in no state that it gets to can an
    assertion fail (`Guarded`). Running it to its end and asking for its first solution
    go well, too. -/
theorem search_never_breaks_a_rule [RandomSource ρ] {live discarded : List Snapshot}
    (hhistory : History False base live discarded)
    (hscope : ∀ v ∈ goal.scope, v ∈ base.allVariables) (hrandom : RandomSource.DrawsBelow ρ)
    (onVariable : VariableChoice) (onValue : ValueChoice) (rule : TerminationRule τ) (random : ρ)
    (termination : τ) :
    ∃ begun, start goal random termination base = .ok begun ∧
      (∀ reported opened s, Course (.of onVariable onValue) rule begun reported opened s →
        Guarded (.of onVariable onValue) rule s) ∧
      (∀ {σ : Type} (listen : Solution → σ × τ → σ × τ) (heard : σ),
        ∃ r t, label (.of onVariable onValue) rule listen begun heard = (.ok r, t)) ∧
      ∃ x u, first (.of onVariable onValue) rule begun = (.ok x, u) := by
  have howns : ∀ v ∈ goal.scope, base.owns v = true := fun v hv => owns_of_mem (hscope v hv)
  have hcared : Cared (.of onVariable onValue : Policy ρ) base goal.scope :=
    ⟨Policy.careful_of hrandom onVariable onValue, Policy.choosesUnfixed_of onVariable onValue,
      howns, fun hf v hv => (hhistory.safe id).sane.inhabited hf v (hscope v hv)⟩
  obtain ⟨begun, hstart, hbegun, hlaunched⟩ :=
    launched_of_start goal random termination hhistory.ordered.stamped howns
  have hsecure := secure_of_launched hbegun hlaunched hhistory.ordered.stamped hhistory.tidy
  have hguarded : ∀ {reported opened s},
      Course (.of onVariable onValue) rule begun reported opened s →
        Guarded (.of onVariable onValue) rule s := fun h => h.guarded hcared hbegun hsecure
  refine ⟨begun, hstart, fun _ _ _ h => hguarded h, fun listen heard => ?_, ?_⟩
  · obtain ⟨heard', _, _, t, hcollect, ht⟩ :=
      Course.collects hcared hsecure listen begun.control.patience heard .begun
    obtain ⟨summary, u, hsummary⟩ := (hguarded ht).summary
    refine ⟨(summary, heard'), u, ?_⟩
    rw [Search.label, hcollect]
    simp only [hsummary]
  · obtain ⟨answer, t, hnext⟩ := (hguarded .begun).run begun.control.patience
    obtain ⟨opened, ht⟩ := Course.begun.run hnext
    obtain ⟨u, hu⟩ := (hguarded ht).released
    exact ⟨_, u, first_of_next hnext hu⟩

/-- Two snapshots deep, with a constraint that waits, and random values. -/
theorem search_in_nestedSuccessors_never_breaks_a_rule :
    ¬ nestedSuccessors.agenda.isEmpty ∧
      ∃ begun : Search Generator Watch,
        start ⟨[⟨0, 1⟩, ⟨0, 0⟩], true, some 5⟩ (.ofSeed 7) (.new (.budget 9 0)) nestedSuccessors =
            .ok begun ∧
          (∀ reported opened s,
            Course (.of .mostConstrained .inDomainRandom) Watch.rule begun reported opened s →
              Guarded (.of .mostConstrained .inDomainRandom) Watch.rule s) ∧
          (∀ {σ : Type} (listen : Solution → σ × Watch → σ × Watch) (heard : σ),
            ∃ r t, label (.of .mostConstrained .inDomainRandom) Watch.rule listen begun heard =
              (.ok r, t)) ∧
          ∃ x u, first (.of .mostConstrained .inDomainRandom) Watch.rule begun = (.ok x, u) := by
  have hhistory : History False nestedSuccessors _ [] :=
    ((((history_successors False).snapshot).operated (.setLowerBound _ ⟨0, 0⟩ 3)).operated
      (.propagate _)).snapshot.operated (.setUpperBound _ ⟨0, 1⟩ 6)
  exact ⟨by decide +kernel, search_never_breaks_a_rule hhistory (by decide +kernel)
    Generator.drawsBelow .mostConstrained .inDomainRandom Watch.rule _ _⟩

end Search

end ConstraintSolver
