import ConstraintSolver.Proofs.Completion
import ConstraintSolver.Proofs.Regions
import ConstraintSolver.Search.DepthFirst

/-! # The ladder — every choice point leads back to where it was opened

    A search goes down by remembering the state and assigning a value, and up
    by restoring what the newest choice point remembers.  So the stack of
    choice points is a ladder: each rung is the state in which a variable was
    chosen, the rungs lie one checkpoint apart, and below the last one is the
    state the search began in (`Ladder`).

    What happens to the domains without going up leaves the ladder as it is
    (`Ladder.retraces`), remembering a state adds a rung (`Ladder.add`), and
    restoring the newest choice point gets back to its rung (`Ladder.climb`).
    From everywhere on the ladder the search can return to where it began
    (`Ladder.root`).  For every rung there is a region which is left to look
    at (`regionsOf`). -/

namespace ConstraintSolver

open Constraint Store

/-! ## The ladder -/

/-- **THE LADDER**: what the choice points of a search lead back to.  Something may be
    known about every rung. -/
inductive Ladder (base : Store) (P : Domains → ChoicePoint → Prop) :
    Domains → List ChoicePoint → Prop
  | ground {D : Domains} (depth : D.depth = base.depth + 1)
      (back : D.restore base.depth = base.domains.settled) : Ladder base P D []
  | rung {D : Domains} {choice : ChoicePoint} {older : List ChoicePoint} {saved : Snapshot}
      (taken : choice.saved = some saved)
      (number : saved.store = base.number)
      (sane : saved.failure = none)
      (depth : saved.depth + 1 = D.depth)
      (known : P (D.restore saved.depth) choice)
      (below : Ladder base P (D.restore saved.depth) older) : Ladder base P D (choice :: older)

/-- The domains which a choice point leads back to. -/
def ChoicePoint.origin (D : Domains) (choice : ChoicePoint) : Domains :=
  match choice.saved with
  | some saved => D.restore saved.depth
  | none => D

/-- The candidates of a choice point, with the other domains as they were. -/
def ChoicePoint.region (D : Domains) (choice : ChoicePoint) : Family :=
  Family.narrowed (choice.origin D).get choice.var choice.remaining

/-- The regions which are left to the choice points. -/
def regionsOf : Domains → List ChoicePoint → List Family
  | _, [] => []
  | D, choice :: older => choice.region D :: regionsOf (choice.origin D) older

theorem ChoicePoint.origin_of_taken {D : Domains} {choice : ChoicePoint} {saved : Snapshot}
    (h : choice.saved = some saved) : choice.origin D = D.restore saved.depth := by
  rw [origin, h]

namespace Ladder

variable {base : Store} {P : Domains → ChoicePoint → Prop} {D E : Domains}
  {stack : List ChoicePoint}

/-- From everywhere on the ladder there is a way back to where the search
    began. -/
theorem root (h : Ladder base P D stack) :
    base.depth < D.depth ∧ D.restore base.depth = base.domains.settled := by
  induction h with
  | ground depth back => exact ⟨by omega, back⟩
  | @rung D choice older saved _ _ _ depth _ _ ih =>
      have hres := Domains.restored D (k := saved.depth) (by omega)
      rw [hres.depth] at ih
      refine ⟨by omega, ?_⟩
      -- going back to the ground directly is going back by way of the rung
      rw [← hres.restore base.depth (Nat.le_of_lt ih.1)]
      exact ih.2

/-- Going down does not change the ladder above. -/
theorem retraces (h : Ladder base P D stack) (hst : D.Stamped) (hr : D.Retraces E) :
    Ladder base P E stack ∧ regionsOf E stack = regionsOf D stack := by
  cases h with
  | ground depth back =>
      refine ⟨.ground (hr.depth.trans depth) ?_, rfl⟩
      rw [hr.restore hst base.depth (by omega)]
      exact back
  | @rung _ choice older saved taken number sane depth known below =>
      have hsame := hr.restore hst saved.depth (by omega)
      refine ⟨.rung taken number sane (depth.trans hr.depth.symm) ?_ ?_, ?_⟩
      · rw [hsame]
        exact known
      · rw [hsame]
        exact below
      · have horigin : choice.origin E = choice.origin D := by
          rw [ChoicePoint.origin_of_taken taken, ChoicePoint.origin_of_taken taken, hsame]
        rw [regionsOf, regionsOf, ChoicePoint.region, ChoicePoint.region, horigin]

/-- Remembering a state adds a rung. -/
theorem add (h : Ladder base P D stack) (hst : D.Stamped) (howner : D.owner = base.number)
    {v : Variable} {candidates : Domain} {choice : ChoicePoint}
    (hchoice : choice = ⟨v, candidates, some ⟨D.owner, D.depth, none⟩⟩)
    (hknown : P D.settled choice) :
    Ladder base P D.checkpoint (choice :: stack) ∧
      regionsOf D.checkpoint (choice :: stack) =
        Family.narrowed D.get v candidates :: regionsOf D stack := by
  subst hchoice
  have hback := D.restore_checkpoint
  obtain ⟨hbelow, hregions⟩ := h.retraces hst (Domains.retraces_settled D)
  constructor
  · refine .rung rfl howner rfl (Domains.depth_checkpoint D).symm ?_ ?_
    · rw [hback]
      exact hknown
    · rw [hback]
      exact hbelow
  · rw [regionsOf, ChoicePoint.region, ChoicePoint.origin_of_taken rfl, hback, hregions]
    rfl

/-- What is known of a store that has got back to a rung. -/
structure Climbed (base : Store) (P : Domains → ChoicePoint → Prop) (choice : ChoicePoint)
    (older : List ChoicePoint) (u : Store) : Prop where
  model : SameModel base u
  stamped : u.domains.Stamped
  quiet : u.domains.changes = []
  agenda : u.agenda = .empty
  failure : u.failure = none
  known : P u.domains choice
  below : Ladder base P u.domains older

/-- **CLIMBING**: restoring the newest choice point gets back to its rung. -/
theorem climb {t : Store} {choice : ChoicePoint} {older : List ChoicePoint}
    (h : Ladder base P t.domains (choice :: older)) (hmodel : SameModel base t)
    (hst : t.domains.Stamped) :
    ∃ saved u, choice.saved = some saved ∧ t.restoreOwned saved = (.ok (), u) ∧
      Climbed base P choice older u ∧
      regionsOf t.domains (choice :: older) =
        Family.narrowed u.domains.get choice.var choice.remaining ::
          regionsOf u.domains older := by
  cases h with
  | @rung _ _ _ saved taken number sane depth known below =>
      have hlt : saved.depth < t.depth := by
        have : saved.depth + 1 = t.depth := depth
        omega
      have hres := Domains.restored t.domains (Nat.le_of_lt hlt)
      refine ⟨saved, _, taken, restoreOwned_eq (number.trans hmodel.number.symm) hlt,
        ⟨?_, hres.stamped hst, hres.changes, rfl, sane, known, below⟩, ?_⟩
      · exact ⟨hmodel.names, hmodel.constraints, hmodel.watchers,
          hmodel.shape.trans ⟨hres.owner, hres.size⟩⟩
      · rw [regionsOf, ChoicePoint.region, ChoicePoint.origin_of_taken taken]

end Ladder

/-! ## Fixpoints on the ladder -/

namespace Store

variable {base s t : Store}

theorem SameModel.solvedBy_iff (h : SameModel s t) {σ : Assignment}
    (hle : t.domains.get ≤ s.domains.get) :
    t.SolvedBy σ ↔ s.SolvedBy σ ∧ Family.Draws t.domains.get s.allVariables σ := by
  rw [SolvedBy, SolvedBy, Solves, Solves, h.constraints, h.allVariables]
  constructor
  · exact fun hσ => ⟨⟨hσ.1.mono hle, hσ.2⟩, hσ.1⟩
  · exact fun hσ => ⟨hσ.2, hσ.1.2⟩

theorem SameModel.restriction (h : SameModel s t) (scope : List Variable) (σ : Assignment) :
    t.restriction scope σ = s.restriction scope σ := by
  simp only [Store.restriction, name, h.names]

/-- A state of the domains at a fixpoint, inside the domains of a store. -/
structure Rested (base : Store) (E : Domains) : Prop where
  resting : Resting .unviolated base E
  suits : ∀ c ∈ base.constraints.toList, Suits E.get c
  inside : E.get ≤ base.domains.get

theorem AtFixpoint.rested (h : AtFixpoint .unviolated t) (hmodel : SameModel base t)
    (hle : t.domains.get ≤ base.domains.get) : Rested base t.domains := by
  have hrest := h.coherent.resting h.idle
  refine ⟨⟨?_, ?_⟩, ?_, hle⟩
  · rw [← hmodel.allVariables]
    exact hrest.inhabited
  · rw [← hmodel.constraints]
    exact hrest.met
  · rw [← hmodel.constraints]
    exact h.propagable

/-- A store in such a state is at a fixpoint, if no constraint waits. -/
theorem Rested.atFixpoint (h : Rested base t.domains) (hmodel : SameModel base t)
    (hw : base.Wired) (hnum : base.Numbered) (hst : t.domains.Stamped)
    (hquiet : t.domains.changes = []) (hagenda : t.agenda = .empty) (hf : t.failure = none) :
    AtFixpoint .unviolated t := by
  have hrest : Resting .unviolated t t.domains := by
    refine ⟨?_, ?_⟩
    · rw [hmodel.allVariables]
      exact h.resting.inhabited
    · rw [hmodel.constraints]
      exact h.resting.met
  refine ⟨⟨hf, hrest.coherent hquiet hagenda, hmodel.wired hw, hmodel.numbered hnum, ?_, hst⟩, ?_⟩
  · intro c hc
    rw [hmodel.constraints] at hc
    exact h.suits c hc
  · rw [hagenda, Agenda.toList_empty]

theorem Rested.congr {D E : Domains} (h : Rested base D) (heq : D.get = E.get) :
    Rested base E := by
  refine ⟨⟨?_, fun c hc => ?_⟩, ?_, ?_⟩
  · rw [← heq]
    exact h.resting.inhabited
  · exact Criterion.unviolated.congr c D E (fun v _ => congrFun heq v) (h.resting.met c hc)
  · rw [← heq]
    exact h.suits
  · rw [← heq]
    exact h.inside

/-- A choice of a variable of the scope at a fixpoint, with candidates from its
    domain. -/
structure Chosen (base : Store) (scope : List Variable) (E : Domains) (choice : ChoicePoint) :
    Prop where
  rested : Rested base E
  inScope : choice.var ∈ scope
  candidates : choice.remaining ≤ E.get choice.var

end Store

namespace Ladder

variable {base : Store} {scope : List Variable} {choice : ChoicePoint}
  {older : List ChoicePoint} {u : Store}

/-- At a rung where a variable was chosen the store is at a fixpoint. -/
theorem Climbed.atFixpoint (h : Climbed base (Chosen base scope) choice older u)
    (hw : base.Wired) (hnum : base.Numbered) : AtFixpoint .unviolated u :=
  h.known.rested.atFixpoint h.model hw hnum h.stamped h.quiet h.agenda h.failure

end Ladder

/-! ## Searches on the ladder -/

namespace Search

variable {ρ τ : Type}

/-- What a search that is not over keeps. -/
structure Amid (base : Store) (s : Search ρ τ) : Prop where
  root : s.control.root = some base.snapshot.1
  status : s.control.status = none
  model : SameModel base s.store
  stamped : s.store.domains.Stamped

/-- The store is as it was before the search, apart from what waits and what is
    counted. -/
structure Returned (base t : Store) : Prop where
  model : SameModel base t
  domains : t.domains = base.domains.settled
  failure : t.failure = base.failure
  agenda : t.agenda = .empty

variable {base : Store} {P : Domains → ChoicePoint → Prop} {s : Search ρ τ}
  {c c' : SearchControl ρ τ} {t u : Store} {stack : List ChoicePoint}

/-- A search with another store of the same model, and the same root and status, is amid as
    well. -/
theorem Amid.of_store (h : Amid base ⟨c, t⟩) (hmodel : SameModel base u)
    (hst : u.domains.Stamped) (hroot : c'.root = c.root) (hstatus : c'.status = c.status) :
    Amid base ⟨c', u⟩ :=
  ⟨hroot.trans h.root, hstatus.trans h.status, hmodel, hst⟩

/-- The termination condition does not matter to where the search is. -/
theorem Amid.changed (h : Amid base s) (termination : τ) :
    Amid base ⟨{ s.control with termination := termination }, s.store⟩ :=
  h.of_store h.model h.stamped rfl rfl

/-- Restoring the state from before the search. -/
theorem restore_root (hmodel : SameModel base t) (hladder : Ladder base P t.domains stack) :
    ∃ u, t.restoreOwned base.snapshot.1 = (.ok (), u) ∧ Returned base u := by
  obtain ⟨hdepth, hback⟩ := hladder.root
  refine ⟨_, restoreOwned_eq hmodel.number.symm hdepth, ?_, hback, rfl, rfl⟩
  have hback' : t.domains.restore base.snapshot.1.depth = base.domains.settled := hback
  rw [hback']
  exact ⟨hmodel.names, hmodel.constraints, hmodel.watchers, .refl _⟩

/-- **ENDING A SEARCH** is possible everywhere on the ladder. -/
theorem finish_returns (h : Amid base ⟨c, t⟩) (hladder : Ladder base P t.domains stack)
    (status : SearchStatus) :
    ∃ s : Search ρ τ, finish ⟨c, t⟩ status = (.ok (), s) ∧ s.control.phase = .exhausted ∧
      s.control.root = none ∧ s.control.status = some status ∧ s.control.goal = c.goal ∧
      Returned base s.store := by
  obtain ⟨u, hrestore, hreturned⟩ := restore_root h.model hladder
  have hroot : c.root = some base.snapshot.1 := h.root
  rw [finish]
  simp only [hroot, hrestore]
  refine ⟨_, rfl, rfl, rfl, rfl, rfl, ?_, hreturned.domains, hreturned.failure,
    hreturned.agenda⟩
  exact hreturned.model.trans (evolves_note u _).toSameModel

/-- **GOING BACK**: choice points without candidates are dropped, up to one with
    candidates left, or to the bottom of the ladder.  What can be said of the
    regions that are left may depend on what is known about the rungs. -/
theorem undoTrial_climbs {R : List Family → Prop}
    (hdrop : ∀ {u : Store} {choice : ChoicePoint} {older : List ChoicePoint}
      {regions : List Family}, Ladder.Climbed base P choice older u →
      choice.remaining.isEmpty = true →
      R (Family.narrowed u.domains.get choice.var choice.remaining :: regions) → R regions)
    (stack : List ChoicePoint) {t : Store} (hmodel : SameModel base t)
    (hst : t.domains.Stamped) (hladder : Ladder base P t.domains stack)
    (hR : R (regionsOf t.domains stack)) :
    (∃ u, undoTrial t stack = (.ok [], u) ∧ SameModel base u ∧ u.domains.Stamped ∧
        Ladder base P u.domains [] ∧ R []) ∨
      ∃ choice older u, undoTrial t stack = (.ok ({ choice with saved := none } :: older), u) ∧
        choice.remaining.isEmpty = false ∧ Ladder.Climbed base P choice older u ∧
        R (Family.narrowed u.domains.get choice.var choice.remaining ::
          regionsOf u.domains older) := by
  -- on the stack, from its top: what is dropped is told to `R` by `hdrop`
  induction stack generalizing t with
  | nil => exact Or.inl ⟨t, rfl, hmodel, hst, hladder, hR⟩
  | cons choice older ih =>
      obtain ⟨saved, u, htaken, hrestore, hclimbed, hregions⟩ := hladder.climb hmodel hst
      rw [hregions] at hR
      rw [undoTrial]
      simp only [htaken, hrestore]
      cases hempty : choice.remaining.isEmpty with
      | true =>
          rw [if_pos rfl]
          exact ih hclimbed.model hclimbed.stamped hclimbed.below (hdrop hclimbed hempty hR)
      | false =>
          rw [if_neg Bool.false_ne_true]
          exact Or.inr ⟨choice, older, u, rfl, hempty, hclimbed, hR⟩

/-- The control after a value has been chosen for a choice point. -/
def decided (rule : TerminationRule τ) (c : SearchControl ρ τ) (choice : ChoicePoint)
    (older : List ChoicePoint) (value : Int) (saved : Snapshot) : SearchControl ρ τ :=
  { c with
    stack := ⟨choice.var, choice.remaining.prune (.except value), some saved⟩ :: older
    termination := rule.decisionMade c.termination
    statistics := { c.statistics with decisions := c.statistics.decisions + 1 } }

theorem decide_eq (rule : TerminationRule τ) (choice : ChoicePoint) (older : List ChoicePoint)
    (value : Int) :
    Search.decide rule ⟨c, t⟩ choice older value =
      match (t.snapshot.2.note (.decision choice.var value (older.length + 1))).assign
          choice.var value with
      | (.ok (), u) => ⟨(decided rule c choice older value t.snapshot.1).goTo .propagating, u⟩
      | (.error _, u) => ⟨(decided rule c choice older value t.snapshot.1).failed, u⟩ := rfl

/-- A candidate is chosen for the newest choice point, none of which is being tried. -/
structure Tries (policy : Policy ρ) (c : SearchControl ρ τ) (t : Store) (choice : ChoicePoint)
    (older : List ChoicePoint) (value : Int) (random : ρ) : Prop where
  stack : c.stack = choice :: older
  untried : choice.saved = none
  left : choice.remaining.isEmpty = false
  chosen : policy.chooseValue t choice.var choice.remaining c.random = .ok (value, random)
  candidate : value ∈ choice.remaining

/-- A candidate that is chosen is tried. -/
theorem Tries.branch {policy : Policy ρ} {choice : ChoicePoint} {older : List ChoicePoint}
    {value : Int} {random : ρ} (h : Tries policy c t choice older value random)
    (rule : TerminationRule τ) :
    Search.branch policy rule ⟨c, t⟩ =
      (.ok (), Search.decide rule ⟨{ c with random := random }, t⟩ choice older value) := by
  rw [Search.branch]
  simp only [h.stack, h.untried, Option.isSome_none, h.left, Bool.false_eq_true, if_false,
    h.chosen, Domain.contains_iff.mpr h.candidate, if_true]

/-- **WHAT BRANCHING CAN DO**: where a rule is broken, the search stays as it is; without a
    choice point it goes back; else a candidate of the newest one is tried. -/
theorem branch_cases (policy : Policy ρ) (rule : TerminationRule τ) (c : SearchControl ρ τ)
    (t : Store) :
    (∃ e, Search.branch policy rule ⟨c, t⟩ = (.error e, ⟨c, t⟩)) ∨
      (c.stack = [] ∧
        Search.branch policy rule ⟨c, t⟩ = (.ok (), ⟨c.goTo .backtracking, t⟩)) ∨
      ∃ choice older value random, Tries policy c t choice older value random := by
  rw [Search.branch]
  cases hstack : c.stack with
  | nil => exact .inr (.inl ⟨rfl, rfl⟩)
  | cons choice older =>
      simp only
      split
      · exact .inl ⟨_, rfl⟩
      · rename_i hsaved
        split
        · exact .inl ⟨_, rfl⟩
        · rename_i hleft
          split
          · exact .inl ⟨_, rfl⟩
          · rename_i value random hchosen
            split
            · rename_i hcontains
              exact .inr (.inr ⟨choice, older, value, random, hstack, by simpa using hsaved,
                Bool.eq_false_iff.mpr hleft, hchosen, Domain.contains_iff.mp hcontains⟩)
            · exact .inl ⟨_, rfl⟩

/-- Branching goes well only without a choice point, or with a candidate that is tried. -/
theorem branch_ok {policy : Policy ρ} {rule : TerminationRule τ} {s : Search ρ τ}
    (h : Search.branch policy rule ⟨c, t⟩ = (.ok (), s)) :
    (c.stack = [] ∧ s = ⟨c.goTo .backtracking, t⟩) ∨
      ∃ choice older value random, Tries policy c t choice older value random ∧
        s = Search.decide rule ⟨{ c with random := random }, t⟩ choice older value := by
  rcases branch_cases policy rule c t with
    ⟨e, he⟩ | ⟨hnil, hback⟩ | ⟨choice, older, value, random, htries⟩
  · rw [he] at h
    cases h
  · rw [hback] at h
    cases h
    exact .inl ⟨hnil, rfl⟩
  · rw [htries.branch] at h
    cases h
    exact .inr ⟨choice, older, value, random, htries, rfl⟩

/-- **A DECISION** adds a rung for what is left to try. -/
theorem ladder_decided (hmodel : SameModel base t) (hst : t.domains.Stamped)
    (hf : t.failure = none) {older : List ChoicePoint}
    (hladder : Ladder base P t.domains older) (rule : TerminationRule τ)
    (c : SearchControl ρ τ) {choice : ChoicePoint} {value : Int}
    (hknown : P t.domains.settled
      ⟨choice.var, choice.remaining.prune (.except value), some t.snapshot.1⟩)
    (hev : Evolves (t.snapshot.2.note (.decision choice.var value (older.length + 1))) u) :
    SameModel base u ∧ u.domains.Stamped ∧
      Ladder base P u.domains (decided rule c choice older value t.snapshot.1).stack ∧
      regionsOf u.domains (decided rule c choice older value t.snapshot.1).stack =
        Family.narrowed t.domains.get choice.var (choice.remaining.prune (.except value)) ::
          regionsOf t.domains older := by
  have hst' : t.domains.checkpoint.Stamped := hst.checkpoint
  have hsaved : t.snapshot.1 = ⟨t.domains.owner, t.domains.depth, none⟩ := by
    rw [snapshot_eq, hf]
    rfl
  have hnoted : SameModel t (t.snapshot.2.note (.decision choice.var value (older.length + 1))) :=
    ⟨rfl, rfl, rfl, .refl _⟩
  obtain ⟨hadded, hregions⟩ := hladder.add hst hmodel.number (by rw [hsaved]) hknown
  obtain ⟨hladder', hregions'⟩ := hadded.retraces hst' hev.retraces
  exact ⟨hmodel.trans (hnoted.trans hev.toSameModel), hev.retraces.stamped hst', hladder',
    hregions'.trans hregions⟩

/-- One more solution has been found. -/
def counted (c : SearchControl ρ τ) : SearchControl ρ τ :=
  { c with statistics := { c.statistics with solutions := c.statistics.solutions + 1 } }

theorem report_eq {x : Solution} (h : readSolution t c.goal.scope = .ok x.entries) :
    Search.report ⟨c, t⟩ =
      if !c.goal.allSolutions || (counted c).limitReached then
        match finish ⟨counted c, t.note (.solution (c.statistics.solutions + 1) x)⟩
            .solutionLimitReached with
        | (.error rule, s) => (.error rule, s)
        | (.ok (), s) => (.ok (some x), s)
      else
        (.ok (some x),
          ⟨(counted c).goTo .backtracking, t.note (.solution (c.statistics.solutions + 1) x)⟩) := by
  rw [Search.report]
  simp only [h]
  rfl

end Search

end ConstraintSolver
