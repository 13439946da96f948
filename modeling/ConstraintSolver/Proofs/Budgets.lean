import ConstraintSolver.Proofs.Exactness
import ConstraintSolver.Proofs.Moves

/-! # Budgets — combined conditions act as their minimum

    All a search learns from its termination condition is when to stop.  So
    two searches which differ in nothing but the condition go through the same
    states, as long as the conditions answer alike and still do so after every
    decision (`TerminationRule.Mirrors`, `Twins.step`).

    A condition that is put together from budgets only answers by the smallest
    number of decisions which one of them still allows (`Condition.allowance`),
    and every decision takes one from each of them.  It therefore mirrors a
    single budget, the minimum of all (`Watch.mirrors`). -/

namespace ConstraintSolver

/-! ## Conditions that count decisions -/

namespace Condition

/-- No clock and no cancellation is part of the condition. -/
def CountsOnly : Condition → Prop
  | indefinite => True
  | budget _ _ => True
  | cancellation => False
  | time _ => False
  | absent => True
  | present condition => condition.CountsOnly
  | either first second => first.CountsOnly ∧ second.CountsOnly

/-- How many decisions each budget of the condition still allows, and at first its limit. -/
def budgets : Condition → List Nat
  | indefinite => []
  | budget limit made => [limit - made]
  | cancellation => []
  | time _ => []
  | absent => []
  | present condition => condition.budgets
  | either first second => first.budgets ++ second.budgets

/-- The minimum of the budgets, if there are any. -/
def allowance (condition : Condition) : Option Nat := condition.budgets.min?

/-- The single condition that allows as many decisions. -/
def ofAllowance : Option Nat → Condition
  | some decisions => budget decisions 0
  | none => indefinite

/-- A single budget counts decisions and does nothing else. -/
theorem countsOnly_ofAllowance (decisions : Option Nat) : (ofAllowance decisions).CountsOnly := by
  cases decisions <;> exact True.intro

@[simp] theorem allowance_ofAllowance (decisions : Option Nat) :
    (ofAllowance decisions).allowance = decisions := by
  cases decisions <;> rfl

/-- The allowance is the least of the budgets. -/
theorem allowance_eq_some_iff {condition : Condition} {least : Nat} :
    condition.allowance = some least ↔
      least ∈ condition.budgets ∧ ∀ n ∈ condition.budgets, least ≤ n := List.min?_eq_some_iff

/-- **STOPPING**: such a condition stops the search when nothing is left of a budget, -/
theorem shouldStop_iff_mem {condition : Condition} (h : condition.CountsOnly) (cancelled : Bool) :
    condition.shouldStop cancelled = true ↔ 0 ∈ condition.budgets := by
  induction condition with
  | indefinite => simp [shouldStop, budgets]
  | budget limit made => simp [shouldStop, budgets, eq_comm, Nat.sub_eq_zero_iff_le]
  | cancellation => exact h.elim
  | time milliseconds => exact h.elim
  | absent => simp [shouldStop, budgets]
  | present condition ih => exact ih h
  | either first second ihf ihs =>
      rw [shouldStop, Bool.or_eq_true, ihf h.1, ihs h.2, budgets, List.mem_append]

/-- and that is the smallest one. -/
theorem shouldStop_iff {condition : Condition} (h : condition.CountsOnly) (cancelled : Bool) :
    condition.shouldStop cancelled = true ↔ condition.allowance = some 0 := by
  rw [shouldStop_iff_mem h, allowance_eq_some_iff]
  exact (and_iff_left fun n _ => Nat.zero_le n).symm

/-- No decision makes a condition read a clock or a cancellation. -/
theorem countsOnly_decisionMade {condition : Condition} (h : condition.CountsOnly) :
    condition.decisionMade.CountsOnly := by
  induction condition with
  | indefinite => exact h
  | budget limit made => exact h
  | cancellation => exact h
  | time milliseconds => exact h
  | absent => exact h
  | present condition ih => exact ih h
  | either first second ihf ihs => exact ⟨ihf h.1, ihs h.2⟩

/-- **DECISIONS** are taken from every budget, -/
theorem budgets_decisionMade (condition : Condition) :
    condition.decisionMade.budgets = condition.budgets.map (· - 1) := by
  induction condition with
  | indefinite => rfl
  | budget limit made => exact congrArg (fun n => [n]) (Nat.sub_add_eq limit made 1)
  | cancellation => rfl
  | time milliseconds => rfl
  | absent => rfl
  | present condition ih => exact ih
  | either first second ihf ihs =>
      rw [decisionMade, budgets, ihf, ihs, budgets, List.map_append]

/-- and the smallest stays the smallest. -/
theorem allowance_decisionMade (condition : Condition) :
    condition.decisionMade.allowance = condition.allowance.map (· - 1) := by
  cases hleast : condition.allowance with
  | none =>
      have hnone : condition.budgets = [] := List.min?_eq_none_iff.mp hleast
      rw [allowance, budgets_decisionMade, hnone]
      rfl
  | some least =>
      obtain ⟨hmem, hle⟩ := allowance_eq_some_iff.mp hleast
      rw [Option.map_some, allowance_eq_some_iff, budgets_decisionMade]
      refine ⟨List.mem_map_of_mem hmem, fun n hn => ?_⟩
      obtain ⟨m, hm, rfl⟩ := List.mem_map.mp hn
      exact Nat.sub_le_sub_right (hle m hm) 1

end Condition

/-- The two conditions answer alike in related states, and the states stay related. -/
structure TerminationRule.Mirrors {τ τ' : Type} (rule : TerminationRule τ)
    (rule' : TerminationRule τ') (R : τ → τ' → Prop) : Prop where
  answer : ∀ {w w'}, R w w' → (rule'.shouldStop w').1 = (rule.shouldStop w).1
  asked : ∀ {w w'}, R w w' → R (rule.shouldStop w).2 (rule'.shouldStop w').2
  decided : ∀ {w w'}, R w w' → R (rule.decisionMade w) (rule'.decisionMade w')

/-- What is known of the condition and of a number stays true if the number counts the
    decisions. -/
structure TerminationRule.Meters {τ : Type} (rule : TerminationRule τ) (J : τ → Nat → Prop) :
    Prop where
  asked : ∀ {w n}, J w n → J (rule.shouldStop w).2 n
  decided : ∀ {w n}, J w n → (rule.shouldStop w).1 = false →
    J (rule.decisionMade (rule.shouldStop w).2) (n + 1)

/-- Both watches count decisions only, and allow as many of them. -/
structure Watch.Matches (w w' : Watch) : Prop where
  counts : w.condition.CountsOnly
  counts' : w'.condition.CountsOnly
  allowance : w'.condition.allowance = w.condition.allowance

/-- **MIRRORED WATCHES**: conditions that only count and allow the same number of decisions answer
    alike, now and after every decision. -/
theorem Watch.mirrors : rule.Mirrors rule Matches where
  answer h := by
    rw [Bool.eq_iff_iff]
    refine (Condition.shouldStop_iff h.counts' _).trans ?_
    rw [h.allowance]
    exact (Condition.shouldStop_iff h.counts _).symm
  asked h := h
  decided h := by
    refine ⟨Condition.countsOnly_decisionMade h.counts,
      Condition.countsOnly_decisionMade h.counts', ?_⟩
    refine (Condition.allowance_decisionMade _).trans ?_
    rw [h.allowance]
    exact (Condition.allowance_decisionMade _).symm

/-- As many decisions are left of the smallest budget as it allows more than have been made. -/
def Watch.Leaves (least : Nat) (w : Watch) (decisions : Nat) : Prop :=
  w.condition.CountsOnly ∧ ∃ left, w.condition.allowance = some left ∧ decisions + left = least

/-- A watch that only counts says how many decisions are left of its smallest budget. -/
theorem Watch.meters (least : Nat) : rule.Meters (Leaves least) where
  asked h := h
  decided := by
    rintro w n ⟨hcounts, left, hleft, hsum⟩ hgoing
    -- the search goes on, so something is left for the decision
    have hpos : left ≠ 0 := by
      rintro rfl
      exact Bool.false_ne_true
        (hgoing.symm.trans ((Condition.shouldStop_iff hcounts w.cancelled).mpr hleft))
    refine ⟨Condition.countsOnly_decisionMade hcounts, left - 1, ?_, by omega⟩
    refine (Condition.allowance_decisionMade _).trans ?_
    exact congrArg (Option.map (· - 1)) hleft

namespace Search

variable {ρ τ τ' α : Type}

/-! ## Searches that differ in the condition -/

/-- The search with another condition. -/
def under (s : Search ρ τ) (w : τ') : Search ρ τ' :=
  ⟨{ s.control with termination := w }, s.store⟩

/-- The searches differ in nothing but their conditions, which are related. -/
def Twins (R : τ → τ' → Prop) (s : Search ρ τ) (s' : Search ρ τ') : Prop :=
  ∃ w, R s.control.termination w ∧ s' = s.under w

/-- The outcomes are the same, and lead to such searches. -/
def Agree (R : τ → τ' → Prop) (r : α × Search ρ τ) (r' : α × Search ρ τ') : Prop :=
  r'.1 = r.1 ∧ Twins R r.2 r'.2

variable {R : τ → τ' → Prop} {s : Search ρ τ} {s' : Search ρ τ'} {policy : Policy ρ}
  {rule : TerminationRule τ} {rule' : TerminationRule τ'}

theorem Twins.patience (h : Twins R s s') : s'.control.patience = s.control.patience := by
  obtain ⟨w, -, rfl⟩ := h
  rfl

/-- Two outcomes which agree are one result, and a pair of twins. -/
theorem Agree.cases {r : α × Search ρ τ} {r' : α × Search ρ τ'} (h : Agree R r r') :
    ∃ result t t', r = (result, t) ∧ r' = (result, t') ∧ Twins R t t' := by
  obtain ⟨result, t⟩ := r
  obtain ⟨result', t'⟩ := r'
  obtain ⟨rfl, ht⟩ : result' = result ∧ Twins R t t' := h
  exact ⟨_, t, t', rfl, rfl, ht⟩

theorem Agree.silently {r : Except Misuse Unit × Search ρ τ} {r' : Except Misuse Unit × Search ρ τ'}
    (h : Agree R r r') : Agree R (silently r) (silently r') := by
  obtain ⟨result, t, t', rfl, rfl, ht⟩ := h.cases
  cases result with
  | error e => exact ⟨rfl, ht⟩
  | ok _ => exact ⟨rfl, ht⟩

theorem Agree.finding (x : Solution) {r : Except Misuse Unit × Search ρ τ}
    {r' : Except Misuse Unit × Search ρ τ'} :
    Agree R r r' → Agree R
      (match r with
        | (.error e, s) => (.error e, s)
        | (.ok (), s) => (.ok (some x), s) : Except Misuse (Option Solution) × Search ρ τ)
      (match r' with
        | (.error e, s) => (.error e, s)
        | (.ok (), s) => (.ok (some x), s)) := by
  intro h
  obtain ⟨result, t, t', rfl, rfl, ht⟩ := h.cases
  cases result with
  | error e => exact ⟨rfl, ht⟩
  | ok _ => exact ⟨rfl, ht⟩

/-- Twins end alike. -/
theorem Twins.finish (h : Twins R s s') (status : SearchStatus) :
    Agree R (finish s status) (finish s' status) := by
  obtain ⟨⟨goal, random, termination, stack, phase, root, statistics, was, runs, patience⟩,
    store⟩ := s
  obtain ⟨w, hw, rfl⟩ := h
  rw [Search.finish, Search.finish]
  simp only [under]
  cases root with
  | none => exact ⟨rfl, w, hw, rfl⟩
  | some root =>
      simp only
      rcases store.restoreOwned root with ⟨_ | _, u⟩
      · exact ⟨rfl, w, hw, rfl⟩
      · exact ⟨rfl, w, hw, rfl⟩

/-- Twins are still twins when both have propagated. -/
theorem Twins.propagate (h : Twins R s s') : Twins R s.propagate s'.propagate := by
  obtain ⟨c, store⟩ := s
  obtain ⟨w, hw, rfl⟩ := h
  rw [Search.propagate, Search.propagate]
  simp only [under]
  rcases store.propagate with ⟨_ | _, u⟩
  · exact ⟨w, hw, rfl⟩
  · exact ⟨w, hw, rfl⟩

/-- Twins go back alike. -/
theorem Twins.backtrack (h : Twins R s s') : Agree R s.backtrack s'.backtrack := by
  obtain ⟨c, store⟩ := s
  obtain ⟨w, hw, rfl⟩ := h
  rw [Search.backtrack, Search.backtrack]
  simp only [under]
  rcases undoTrial store c.stack with ⟨_ | (_ | ⟨choice, older⟩), u⟩
  · exact ⟨rfl, w, hw, rfl⟩
  · exact Twins.finish (s := ⟨{ c with stack := [] }, u⟩) ⟨w, hw, rfl⟩ .complete
  · exact ⟨rfl, w, hw, rfl⟩

/-- Twins report the same solution. -/
theorem Twins.report (h : Twins R s s') : Agree R s.report s'.report := by
  obtain ⟨c, store⟩ := s
  obtain ⟨w, hw, rfl⟩ := h
  cases hread : readSolution store c.goal.scope with
  | error e =>
      rw [Search.report, Search.report]
      simp only [under, hread]
      exact ⟨rfl, w, hw, rfl⟩
  | ok entries =>
      have hread' : readSolution store ({ c with termination := w } : SearchControl ρ τ').goal.scope
          = .ok entries := hread
      -- the limit does not depend on the condition
      have hlimit : (counted ({ c with termination := w } : SearchControl ρ τ')).limitReached =
          (counted c).limitReached := rfl
      rw [report_eq (x := ⟨entries⟩) hread, under, report_eq (x := ⟨entries⟩) hread', hlimit]
      split
      · have hsame : Twins R
            ⟨counted c, store.note (.solution (c.statistics.solutions + 1) ⟨entries⟩)⟩
            ⟨counted { c with termination := w },
              store.note (.solution (c.statistics.solutions + 1) ⟨entries⟩)⟩ := ⟨w, hw, rfl⟩
        exact .finding ⟨entries⟩ (hsame.finish .solutionLimitReached)
      · exact ⟨rfl, w, hw, rfl⟩

/-- Twins select the same variable, or report the same solution. -/
theorem Twins.select (h : Twins R s s') : Agree R (s.select policy) (s'.select policy) := by
  obtain ⟨c, store⟩ := s
  obtain ⟨w, hw, rfl⟩ := h
  rw [Search.select, Search.select]
  simp only [under]
  rcases policy.chooseVariable store c.goal.scope with _ | (_ | v)
  · exact ⟨rfl, w, hw, rfl⟩
  · simp only
    rcases store.hasCompletion with ⟨_ | (_ | _), u⟩
    · exact ⟨rfl, w, hw, rfl⟩
    · exact ⟨rfl, w, hw, rfl⟩
    · exact Twins.report (s := ⟨c, u⟩) ⟨w, hw, rfl⟩
  · by_cases howns : store.owns v = true
    · simp only [howns, if_true]
      exact ⟨rfl, w, hw, rfl⟩
    · simp only [howns]
      exact ⟨rfl, w, hw, rfl⟩

/-- Twins say the same of themselves. -/
theorem Twins.summarize (h : Twins R s s') : Agree R s.summarize s'.summarize := by
  obtain ⟨result, t, t', hr, hr', ht⟩ := (h.finish .terminated).cases
  have hstatus : s'.control.status = s.control.status := by
    obtain ⟨w, -, rfl⟩ := h
    rfl
  have hstatistics : s'.control.statistics = s.control.statistics := by
    obtain ⟨w, -, rfl⟩ := h
    rfl
  rw [Search.summarize, Search.summarize, hstatus, hstatistics, hr, hr']
  cases s.control.status with
  | some status => exact ⟨rfl, h⟩
  | none =>
      cases result with
      | error e => exact ⟨rfl, ht⟩
      | ok _ =>
          obtain ⟨w, hw, rfl⟩ := ht
          exact ⟨rfl, w, hw, rfl⟩

/-- Twins give back the same store. -/
theorem Twins.release (h : Twins R s s') : s'.release = s.release := by
  obtain ⟨w, -, rfl⟩ := h
  rfl

/-- Searches begun with conditions that are related are twins. -/
theorem twins_begin (goal : SearchGoal) (random : ρ) (store : Store) {w : τ} {w' : τ'}
    (hw : R w w') : Agree R (begin goal random w store) (begin goal random w' store) := by
  rw [begin_eq goal random w store rfl, begin_eq goal random w' store rfl]
  let t := (store.note
    (.searchStarted goal.scope.length goal.allSolutions goal.limit)).snapshot.2
  have hsame : Twins R ⟨opening goal random w store.snapshot.1 t, t⟩
      ⟨opening goal random w' store.snapshot.1 t, t⟩ := ⟨w', hw, rfl⟩
  have hlimit : (opening goal random w' store.snapshot.1 t).limitReached =
      (opening goal random w store.snapshot.1 t).limitReached := rfl
  rw [hlimit]
  split
  · exact hsame.finish .solutionLimitReached
  · exact ⟨rfl, hsame⟩

/-- **BEGINNING** fails for both or for none. -/
theorem twins_start (goal : SearchGoal) (random : ρ) (store : Store) {w : τ} {w' : τ'}
    (hw : R w w') :
    (∃ e, start goal random w store = .error e ∧ start goal random w' store = .error e) ∨
      ∃ begun begun', start goal random w store = .ok begun ∧
        start goal random w' store = .ok begun' ∧ Twins R begun begun' := by
  rw [start, start]
  split
  · exact Or.inl ⟨_, rfl, rfl⟩
  · simp only
    obtain ⟨result, t, t', hr, hr', ht⟩ := (twins_begin goal random
      (if goal.scope.isEmpty then store.note .emptyScope else store) hw).cases
    rw [hr, hr']
    cases result with
    | error e => exact Or.inl ⟨_, rfl, rfl⟩
    | ok _ => exact Or.inr ⟨t, t', rfl, rfl, ht⟩

variable (hmirrors : rule.Mirrors rule' R)
include hmirrors

/-- A decision is told to both conditions, so twins are still twins after it. -/
theorem Twins.decide (h : Twins R s s') (choice : ChoicePoint) (older : List ChoicePoint)
    (value : Int) :
    Twins R (Search.decide rule s choice older value)
      (Search.decide rule' s' choice older value) := by
  obtain ⟨c, store⟩ := s
  obtain ⟨w, hw, rfl⟩ := h
  rw [Search.decide, Search.decide]
  simp only [under]
  rcases Store.assign _ choice.var value with ⟨_ | _, u⟩
  · exact ⟨rule'.decisionMade w, hmirrors.decided hw, rfl⟩
  · exact ⟨rule'.decisionMade w, hmirrors.decided hw, rfl⟩

/-- Twins try the same candidate. -/
theorem Twins.branch (h : Twins R s s') :
    Agree R (s.branch policy rule) (s'.branch policy rule') := by
  obtain ⟨⟨goal, random, termination, stack, phase, root, statistics, status, runs, patience⟩,
    store⟩ := s
  obtain ⟨w, hw, rfl⟩ := h
  -- every check is about what the two have in common
  rw [Search.branch, Search.branch]
  simp only [under]
  cases stack with
  | nil => exact ⟨rfl, w, hw, rfl⟩
  | cons choice older =>
      simp only
      split
      · exact ⟨rfl, w, hw, rfl⟩
      · split
        · exact ⟨rfl, w, hw, rfl⟩
        · rcases policy.chooseValue store choice.var choice.remaining random with
            _ | ⟨value, rest⟩
          · exact ⟨rfl, w, hw, rfl⟩
          · simp only
            split
            · exact ⟨rfl, Twins.decide (s := ⟨⟨goal, rest, termination, choice :: older, phase,
                root, statistics, status, runs, patience⟩, store⟩) hmirrors ⟨w, hw, rfl⟩ choice
                older value⟩
            · exact ⟨rfl, w, hw, rfl⟩

/-- Related conditions stop both of the twins, or neither. -/
theorem Twins.unlessStopped (h : Twins R s s')
    {go : Search ρ τ → Except Misuse (Option Solution) × Search ρ τ}
    {go' : Search ρ τ' → Except Misuse (Option Solution) × Search ρ τ'}
    (hgo : ∀ {t t'}, Twins R t t' → Agree R (go t) (go' t')) :
    Agree R (s.unlessStopped rule go) (s'.unlessStopped rule' go') := by
  obtain ⟨c, store⟩ := s
  obtain ⟨w, hw, rfl⟩ := h
  have hanswer := hmirrors.answer hw
  have hasked := hmirrors.asked hw
  rw [Search.unlessStopped, Search.unlessStopped]
  simp only [under]
  cases hstop : rule.shouldStop c.termination with
  | mk stop v =>
      cases hstop' : rule'.shouldStop w with
      | mk stop' v' =>
          rw [hstop, hstop'] at hanswer hasked
          obtain rfl : stop' = stop := hanswer
          cases stop' with
          | true => exact (Twins.finish (s := ⟨{ c with termination := v }, store⟩)
              ⟨v', hasked, rfl⟩ .terminated).silently
          | false => exact hgo (t := ⟨{ c with termination := v }, store⟩) ⟨v', hasked, rfl⟩

variable (policy) in
/-- **A STEP** is the same for both. -/
theorem Twins.step (h : Twins R s s') : Agree R (s.step policy rule) (s'.step policy rule') := by
  have hphase : s'.control.phase = s.control.phase := by
    obtain ⟨w, -, rfl⟩ := h
    rfl
  rw [Search.step, Search.step, hphase]
  cases s.control.phase with
  | propagating => exact ⟨rfl, h.propagate⟩
  | selecting => exact h.unlessStopped hmirrors fun ht => ht.select
  | branching => exact h.unlessStopped hmirrors fun ht => (ht.branch hmirrors).silently
  | backtracking => exact h.backtrack.silently
  | exhausted => exact ⟨rfl, h⟩

/-- **A RUN** is the same for both. -/
theorem Twins.run (steps : Nat) (h : Twins R s s') :
    Agree R (Search.run policy rule steps s) (Search.run policy rule' steps s') := by
  induction steps generalizing s s' with
  | zero =>
      obtain ⟨w, hw, rfl⟩ := h
      exact ⟨rfl, w, hw, rfl⟩
  | succ steps ih =>
      rw [Search.run, Search.run]
      obtain ⟨result, t, t', hr, hr', ht⟩ := (h.step policy hmirrors).cases
      rw [hr, hr']
      obtain ⟨w, hw, rfl⟩ := h
      change Agree R _ (if s.control.phase = .exhausted then _ else _)
      split
      · exact ⟨rfl, w, hw, rfl⟩
      · cases result with
        | error e => exact ⟨rfl, ht⟩
        | ok found =>
            cases found with
            | some x => exact ⟨rfl, ht⟩
            | none => exact ih ht

variable (policy) in
/-- Twins give the same answer when asked for the next solution. -/
theorem Twins.next (h : Twins R s s') : Agree R (s.next policy rule) (s'.next policy rule') := by
  rw [Search.next, Search.next, h.patience]
  exact h.run hmirrors _

/-- As many calls, whatever they answer. -/
def calls (policy : Policy ρ) (rule : TerminationRule τ) :
    Nat → Search ρ τ → List (Except Misuse Answer) × Search ρ τ
  | 0, s => ([], s)
  | count + 1, s =>
      match s.next policy rule with
      | (answer, s) =>
          match calls policy rule count s with
          | (answers, s) => (answer :: answers, s)

variable (policy) in
/-- Twins give the same answers to any number of calls. -/
theorem Twins.calls (count : Nat) (h : Twins R s s') :
    Agree R (s.calls policy rule count) (s'.calls policy rule' count) := by
  induction count generalizing s s' with
  | zero => exact ⟨rfl, h⟩
  | succ count ih =>
      obtain ⟨hanswer, ht⟩ := h.next policy hmirrors
      obtain ⟨hanswers, hu⟩ := ih ht
      exact ⟨congrArg₂ List.cons hanswer hanswers, hu⟩

variable (policy) in
/-- A listener hears the same solutions from both twins. -/
theorem Twins.collect {σ : Type} (listen : Solution → σ → σ) (solutions : Nat) (heard : σ)
    (h : Twins R s s') :
    Agree R (collect policy rule (fun x told => (listen x told.1, told.2)) solutions s heard)
      (collect policy rule' (fun x told => (listen x told.1, told.2)) solutions s' heard) := by
  induction solutions generalizing s s' heard with
  | zero => exact ⟨rfl, h⟩
  | succ solutions ih =>
      obtain ⟨result, t, _, hr, hr', w, hw, rfl⟩ := (h.next policy hmirrors).cases
      rw [Search.collect, Search.collect, hr, hr']
      rcases result with e | x | _ | _ | _
      · exact ⟨rfl, w, hw, rfl⟩
      · exact ih _ ⟨w, hw, rfl⟩
      · exact ⟨rfl, w, hw, rfl⟩
      · exact ⟨rfl, w, hw, rfl⟩
      · exact ⟨rfl, w, hw, rfl⟩

variable (policy) in
/-- **A WHOLE SEARCH** is the same for both, if the listener does not interfere. -/
theorem Twins.label {σ : Type} (listen : Solution → σ → σ) (heard : σ) (h : Twins R s s') :
    Agree R (label policy rule (fun x told => (listen x told.1, told.2)) s heard)
      (label policy rule' (fun x told => (listen x told.1, told.2)) s' heard) := by
  obtain ⟨result, t, t', hr, hr', ht⟩ :=
    (h.collect policy hmirrors listen s.control.patience heard).cases
  rw [Search.label, Search.label, h.patience, hr, hr']
  cases result with
  | error e => exact ⟨rfl, ht⟩
  | ok heard =>
      obtain ⟨result, u, u', hr, hr', hu⟩ := ht.summarize.cases
      simp only [hr, hr']
      cases result with
      | error e => exact ⟨rfl, hu⟩
      | ok summary => exact ⟨rfl, hu⟩

/-- Twins find the same first solution, and leave the same store. -/
theorem Twins.first (h : Twins R s s') : s'.first policy rule' = s.first policy rule := by
  obtain ⟨result, t, t', hr, hr', ht⟩ := (h.next policy hmirrors).cases
  rw [Search.first, Search.first, hr, hr']
  cases result with
  | error e =>
      obtain ⟨w, -, rfl⟩ := ht
      rfl
  | ok answer => simp only [ht.release]

omit hmirrors

/-! ## What a search spends -/

variable {J : τ → Nat → Prop}

/-- The search knows this of its condition and of the decisions it has made. -/
def Keeps (J : τ → Nat → Prop) (s : Search ρ τ) : Prop :=
  J s.control.termination s.control.statistics.decisions

/-- Ending a search changes neither its condition nor the number of its decisions. -/
theorem keeps_finish {status : SearchStatus} {r : Except Misuse Unit × Search ρ τ}
    (h : Keeps J s) (hr : Search.finish s status = r) : Keeps J r.2 := by
  subst hr
  rw [Search.finish]
  split
  · exact h
  · exact h

theorem keeps_propagate (h : Keeps J s) : Keeps J s.propagate := by
  rw [Search.propagate]
  split
  · exact h
  · exact h

theorem keeps_backtrack (h : Keeps J s) : Keeps J s.backtrack.2 := by
  rw [Search.backtrack]
  split
  · exact h
  · exact keeps_finish (by exact h) rfl
  · exact h

theorem keeps_report (h : Keeps J s) : Keeps J s.report.2 := by
  rw [Search.report]
  split
  · exact h
  · simp only
    split
    · split
      · rename_i hfinish
        exact keeps_finish (by exact h) hfinish
      · rename_i hfinish
        exact keeps_finish (by exact h) hfinish
    · exact h

/-- A search that selects asks its condition, and makes no decision. -/
theorem keeps_select (h : Keeps J s) : Keeps J (s.select policy).2 := by
  rw [Search.select]
  split
  · exact h
  · split
    · exact h
    · exact h
  · split
    · exact h
    · exact keeps_report (by exact h)
    · exact h

theorem keeps_silently {r : Except Misuse Unit × Search ρ τ} (h : Keeps J r.2) :
    Keeps J (silently r).2 := by
  obtain ⟨_ | _, t⟩ := r
  · exact h
  · exact h

/-- A decision is counted by the search and by its condition. -/
theorem keeps_branch {n : Nat} (hn : s.control.statistics.decisions = n)
    (h : J s.control.termination n) (hnext : J (rule.decisionMade s.control.termination) (n + 1)) :
    Keeps J (s.branch policy rule).2 := by
  subst hn
  obtain ⟨c, store⟩ := s
  rcases branch_cases policy rule c store with
    ⟨e, he⟩ | ⟨_, hback⟩ | ⟨choice, older, value, random, htries⟩
  · rw [he]
    exact h
  · rw [hback]
    exact h
  · rw [htries.branch, decide_eq]
    split
    · exact hnext
    · exact hnext

variable (hmeters : rule.Meters J)
include hmeters

variable (policy) in
/-- **A STEP** keeps the accounts. -/
theorem keeps_step (h : Keeps J s) : Keeps J (s.step policy rule).2 := by
  obtain ⟨c, store⟩ := s
  -- the condition is asked before a step that could decide something
  have hunless : ∀ go : Search ρ τ → Except Misuse (Option Solution) × Search ρ τ,
      ((rule.shouldStop c.termination).1 = false →
        Keeps J (go ⟨{ c with termination := (rule.shouldStop c.termination).2 }, store⟩).2) →
      Keeps J (unlessStopped rule ⟨c, store⟩ go).2 := by
    intro go hgo
    have hasked := hmeters.asked h
    rw [unlessStopped]
    split
    · rename_i w hstop
      rw [hstop] at hasked
      exact keeps_silently (keeps_finish (by exact hasked) rfl)
    · rename_i w hstop
      rw [hstop] at hgo
      exact hgo rfl
  rw [Search.step]
  split
  · exact keeps_propagate h
  · exact hunless _ fun _ => keeps_select (hmeters.asked h)
  · exact hunless _ fun hstop => keeps_silently
      (keeps_branch rfl (hmeters.asked h) (hmeters.decided h hstop))
  · exact keeps_silently (keeps_backtrack h)
  · exact h

variable (policy) in
/-- What is known of condition and decisions is kept by any number of steps. -/
theorem keeps_run (steps : Nat) (h : Keeps J s) : Keeps J (Search.run policy rule steps s).2 := by
  induction steps generalizing s with
  | zero => exact h
  | succ steps ih =>
      rw [Search.run]
      split
      · exact h
      · have hstep := keeps_step policy hmeters h
        split
        · rename_i heq
          rw [heq] at hstep
          exact hstep
        · rename_i heq
          rw [heq] at hstep
          exact hstep
        · rename_i heq
          rw [heq] at hstep
          exact ih hstep

variable (policy) in
/-- What is known of condition and decisions is kept by any number of calls. -/
theorem keeps_calls (count : Nat) (h : Keeps J s) : Keeps J (s.calls policy rule count).2 := by
  induction count generalizing s with
  | zero => exact h
  | succ count ih => exact ih (keeps_run policy hmeters _ h)

omit hmeters

/-- A search which has been begun has made no decision. -/
theorem keeps_of_start {goal : SearchGoal} {random : ρ} {w : τ} {store : Store}
    (hstart : start goal random w store = .ok s) (h : J w 0) : Keeps J s := by
  obtain ⟨saved, u, heq | ⟨runs, heq⟩⟩ := control_of_start hstart
  · rw [Keeps, heq]
    exact h
  · rw [Keeps, heq]
    exact h

/-! ## Combined budgets -/

/-- **NO ONE CAN TELL** the searches apart: what they answer, how they go on, what they say
    about themselves, and in which state they give the store back. -/
structure Interchangeable (policy : Policy ρ) (rule : TerminationRule τ)
    (rule' : TerminationRule τ') (s : Search ρ τ) (s' : Search ρ τ') : Prop where
  answers : ∀ n, (s'.calls policy rule' n).1 = (s.calls policy rule n).1
  states : ∀ n, ∃ w, (s'.calls policy rule' n).2 = (s.calls policy rule n).2.under w
  summaries : ∀ n, (s'.calls policy rule' n).2.summarize.1 = (s.calls policy rule n).2.summarize.1
  returned : ∀ n, (s'.calls policy rule' n).2.release = (s.calls policy rule n).2.release
  labelled : ∀ {σ : Type} (listen : Solution → σ → σ) (heard : σ),
    ∃ result t w,
      s.label policy rule (fun x told => (listen x told.1, told.2)) heard = (result, t) ∧
        s'.label policy rule' (fun x told => (listen x told.1, told.2)) heard = (result, t.under w)
  first : s'.first policy rule' = s.first policy rule

/-- **TWINS ARE INTERCHANGEABLE**, whatever is asked of them and however often. -/
theorem Twins.interchangeable (hmirrors : rule.Mirrors rule' R) (h : Twins R s s') :
    Interchangeable policy rule rule' s s' where
  answers n := (h.calls policy hmirrors n).1
  states n := by
    obtain ⟨-, w, -, hw⟩ := h.calls policy hmirrors n
    exact ⟨w, hw⟩
  summaries n := (h.calls policy hmirrors n).2.summarize.1
  returned n := (h.calls policy hmirrors n).2.release
  labelled listen heard := by
    obtain ⟨hresult, w, -, hw⟩ := h.label policy hmirrors listen heard
    exact ⟨_, _, w, rfl, Prod.ext hresult hw⟩
  first := h.first hmirrors

/-- **COMBINED BUDGETS ACT AS THEIR MINIMUM**: a search whose condition is put together from
    budgets, and from conditions that never stop it, cannot be told from the search with just
    the smallest budget, or with none if there is none. At no time has it made more decisions
    than that. -/
theorem combined_budgets_act_as_minimum {condition : Condition} (hcounts : condition.CountsOnly)
    (policy : Policy ρ) (goal : SearchGoal) (random : ρ) (store : Store) :
    (∃ e, start goal random (Watch.new condition) store = .error e ∧
        start goal random (Watch.new (.ofAllowance condition.allowance)) store = .error e) ∨
      ∃ s s', start goal random (Watch.new condition) store = .ok s ∧
        start goal random (Watch.new (.ofAllowance condition.allowance)) store = .ok s' ∧
        Interchangeable policy Watch.rule Watch.rule s s' ∧
        ∀ least ∈ condition.allowance, ∀ n steps,
          (Search.run policy Watch.rule steps
            (s.calls policy Watch.rule n).2).2.control.statistics.decisions ≤ least := by
  have hmatches : Watch.Matches (.new condition) (.new (.ofAllowance condition.allowance)) :=
    ⟨hcounts, Condition.countsOnly_ofAllowance _, Condition.allowance_ofAllowance _⟩
  refine (twins_start goal random store hmatches).imp id ?_
  rintro ⟨s, s', hs, hs', htwins⟩
  refine ⟨s, s', hs, hs', htwins.interchangeable Watch.mirrors, ?_⟩
  intro least hleast n steps
  have hkeeps : Keeps (Watch.Leaves least) s :=
    keeps_of_start hs ⟨hcounts, least, hleast, Nat.zero_add least⟩
  obtain ⟨-, left, -, hsum⟩ := keeps_run policy (Watch.meters least) steps
    (keeps_calls policy (Watch.meters least) n hkeeps)
  exact hsum ▸ Nat.le_add_right _ left

/-- Budgets of two decisions and of one, where the search is stopped after one. -/
theorem search_with_two_budgets_stops_at_the_smaller :
    (Condition.either (.present (.budget 2 0)) (.either .absent (.budget 1 0))).CountsOnly ∧
      ∃ s s' : Search Generator Watch,
        start ⟨[⟨0, 0⟩, ⟨0, 2⟩], true, none⟩ (.ofSeed 7)
          (.new (.either (.present (.budget 2 0)) (.either .absent (.budget 1 0)))) flaggedPair =
            .ok s ∧
        start ⟨[⟨0, 0⟩, ⟨0, 2⟩], true, none⟩ (.ofSeed 7) (.new (.budget 1 0)) flaggedPair = .ok s' ∧
        Interchangeable (.of .smallestDomain .inDomainMin) Watch.rule Watch.rule s s' ∧
        (s.calls (.of .smallestDomain .inDomainMin) Watch.rule 2).1.getLast? =
          some (.ok .unknown) ∧
        (s.calls (.of .smallestDomain .inDomainMin) Watch.rule 2).2.control.statistics.decisions =
          1 := by
  have hcounts : (Condition.either (.present (.budget 2 0))
      (.either .absent (.budget 1 0))).CountsOnly := ⟨True.intro, True.intro, True.intro⟩
  refine ⟨hcounts, ?_⟩
  -- the last answer and the number of decisions, as the search computes them
  have hrun : (start ⟨[⟨0, 0⟩, ⟨0, 2⟩], true, none⟩ (Generator.ofSeed 7)
      (Watch.new (.either (.present (.budget 2 0)) (.either .absent (.budget 1 0))))
      flaggedPair).map (fun s =>
        ((s.calls (.of .smallestDomain .inDomainMin) Watch.rule 2).1.getLast?,
          (s.calls (.of .smallestDomain .inDomainMin) Watch.rule 2).2.control.statistics.decisions))
      = .ok (some (.ok .unknown), 1) := by
    decide +kernel
  rcases combined_budgets_act_as_minimum hcounts (.of .smallestDomain .inDomainMin)
      ⟨[⟨0, 0⟩, ⟨0, 2⟩], true, none⟩ (Generator.ofSeed 7) flaggedPair with
    ⟨e, hfails, -⟩ | ⟨s, s', hs, hs', hsame, -⟩
  · rw [hfails] at hrun
    cases hrun
  · rw [hs] at hrun
    obtain ⟨hanswer, hdecisions⟩ := Prod.ext_iff.mp (Except.ok.inj hrun)
    exact ⟨s, s', hs, hs', hsame, hanswer, hdecisions⟩

end Search

end ConstraintSolver
