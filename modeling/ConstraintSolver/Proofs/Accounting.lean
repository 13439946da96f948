import Mathlib.Data.Finset.Card
import Mathlib.Data.Finset.Dedup
import ConstraintSolver.Proofs.Arising
import ConstraintSolver.Proofs.Chart

/-! # Accounting — the counters of a search add up

    A search goes through the nodes of a tree: the first propagation leads to
    the root, and every decision to another node.  A node fails, or gives a
    solution, or is branched on.  So at any moment the nodes are the failures,
    the solutions and the choice points that were opened, and perhaps the one
    at which the search is just then (`Balanced`).

    A choice point is opened with two candidates at least, and is only left
    when all of them have been tried.  So a complete search has made two
    decisions for each choice point, and the failures and solutions are more
    than half of the nodes.

    The open choice points belong to different variables of the scope, all of
    which were unfixed when the search was begun, because the one that is
    chosen is fixed from then on (`unfixedChart_right`). -/

namespace ConstraintSolver

open Constraint Store

/-! ## Sizes -/

theorem Domain.size_pos {d : Domain} {x : Int} (h : x ∈ d) : 0 < d.size := by
  rw [← d.length_values]
  exact List.length_pos_of_mem (mem_values.mpr h)

/-- Taking a value away takes one value away. -/
theorem Domain.size_except {d : Domain} {x : Int} (h : x ∈ d) :
    (d.prune (.except x)).size + 1 = d.size := by
  have hmem : x ∈ d.values := mem_values.mpr h
  have herase : (d.prune (.except x)).values = d.values.erase x := by
    rw [values_prune, d.nodup_values.erase_eq_filter]
    refine List.filter_congr fun y _ => ?_
    rw [Bool.eq_iff_iff, decide_eq_true_iff, bne_iff_ne]
    rfl
  have hpos := List.length_pos_of_mem hmem
  rw [← length_values, ← length_values, herase, List.length_erase_of_mem hmem]
  omega

/-- An unfixed domain has two values, or none. -/
theorem Domain.two_le_size {d : Domain} (hfree : d.isFixed = false) (hne : ∃ x, x ∈ d) :
    2 ≤ d.size := by
  obtain ⟨x, hx⟩ := hne
  by_contra hlt
  have hnone : ∀ y ∈ d, y = x := by
    intro y hy
    by_contra hyx
    have hrest := size_pos (mem_prune.mpr ⟨hy, hyx⟩ : y ∈ d.prune (.except x))
    have hsize := size_except hx
    omega
  rw [isFixed_iff.mpr ⟨x, hx, hnone⟩] at hfree
  cases hfree

namespace Search

variable {ρ τ : Type}

/-! ## Nodes -/

/-- The number of candidates that are left at the choice points. -/
def candidatesLeft : List ChoicePoint → Nat
  | [] => 0
  | choice :: older => choice.remaining.size + candidatesLeft older

/-- Going back drops choice points without candidates only. -/
theorem undoTrial_candidates {t u : Store} {stack stack' : List ChoicePoint}
    (h : undoTrial t stack = (.ok stack', u)) :
    candidatesLeft stack' = candidatesLeft stack ∧ stack'.length ≤ stack.length := by
  induction stack generalizing t with
  | nil =>
      cases h
      exact ⟨rfl, Nat.le_refl _⟩
  | cons choice older ih =>
      rw [undoTrial] at h
      split at h
      · cases h
      · split at h
        · rename_i hempty
          obtain ⟨hcandidates, hlength⟩ := ih h
          -- only choice points without candidates are given up
          have hnone : choice.remaining.size = 0 := by
            rw [← Domain.length_values, List.length_eq_zero_iff, List.eq_nil_iff_forall_not_mem]
            exact fun x hx => Domain.isEmpty_iff.mp hempty x (Domain.mem_values.mp hx)
          rw [candidatesLeft, List.length_cons]
          omega
        · cases h
          exact ⟨rfl, Nat.le_refl _⟩

/-- **THE BALANCE** of a search that has opened some choice points. -/
inductive Balanced (opened : Nat) (c : SearchControl ρ τ) : Prop
  /-- The search is at a node. -/
  | arrived (phase : c.phase = .propagating ∨ c.phase = .selecting)
      (nodes : c.statistics.decisions =
        c.statistics.failures + c.statistics.solutions + opened)
      (height : c.stack.length ≤ c.statistics.decisions)
      (twofold : 2 * opened ≤ c.statistics.decisions + candidatesLeft c.stack)
  /-- The search branches on a node, if there are candidates. -/
  | branching {choice : ChoicePoint} {older : List ChoicePoint} (phase : c.phase = .branching)
      (stack : c.stack = choice :: older)
      (nodes : c.statistics.decisions + 1 =
        c.statistics.failures + c.statistics.solutions + opened)
      (height : older.length ≤ c.statistics.decisions)
      (twofold : (∃ x, x ∈ choice.remaining) →
        2 * opened ≤ c.statistics.decisions + candidatesLeft c.stack)
  /-- The search has left a node for good. -/
  | leaving (phase : c.phase = .backtracking)
      (nodes : c.statistics.decisions + 1 =
        c.statistics.failures + c.statistics.solutions + opened)
      (height : c.stack.length ≤ c.statistics.decisions)
      (twofold : 2 * opened ≤ c.statistics.decisions + candidatesLeft c.stack)
  | exhausted (phase : c.phase = .exhausted)
      (nodes : c.statistics.failures + c.statistics.solutions + opened ≤
        c.statistics.decisions + 1)
      (complete : c.status = some .complete →
        c.statistics.decisions + 1 = c.statistics.failures + c.statistics.solutions + opened ∧
          2 * opened ≤ c.statistics.decisions)

/-- What the counters say, if no more than so many choice points can be open at the same
    time. -/
structure Accounted (most : Nat) (reported : List Solution) (opened : Nat)
    (c : SearchControl ρ τ) : Prop where
  found : c.statistics.solutions = reported.length
  peak : c.statistics.peakDepth ≤ c.statistics.decisions + 1
  breadth : c.statistics.peakDepth ≤ most
  balanced : Balanced opened c

variable {policy : Policy ρ} {rule : TerminationRule τ} {c : SearchControl ρ τ} {t : Store}
  {s s' : Search ρ τ} {reported : List Solution} {opened most : Nat} {found : Option Solution}

/-- Every failure, solution and choice point but one goes back to a decision. -/
theorem Balanced.nodes_le (h : Balanced opened c) :
    c.statistics.failures + c.statistics.solutions + opened ≤ c.statistics.decisions + 1 := by
  cases h with
  | arrived _ nodes => omega
  | branching _ _ nodes => omega
  | leaving _ nodes => omega
  | exhausted _ nodes => exact nodes

/-- The balance where a node is looked at. -/
theorem Balanced.at_node (h : Balanced opened c)
    (hphase : c.phase = .propagating ∨ c.phase = .selecting) :
    c.statistics.decisions = c.statistics.failures + c.statistics.solutions + opened ∧
      c.stack.length ≤ c.statistics.decisions ∧
      2 * opened ≤ c.statistics.decisions + candidatesLeft c.stack := by
  cases h with
  | arrived _ nodes height twofold => exact ⟨nodes, height, twofold⟩
  | branching phase => simp [phase] at hphase
  | leaving phase => simp [phase] at hphase
  | exhausted phase => simp [phase] at hphase

/-- The balance where a value is to be tried. -/
theorem Balanced.at_branching (h : Balanced opened c) (hphase : c.phase = .branching)
    {choice : ChoicePoint} {older : List ChoicePoint} (hstack : c.stack = choice :: older) :
    c.statistics.decisions + 1 = c.statistics.failures + c.statistics.solutions + opened ∧
      older.length ≤ c.statistics.decisions ∧
      ((∃ x, x ∈ choice.remaining) →
        2 * opened ≤ c.statistics.decisions + candidatesLeft (choice :: older)) := by
  cases h with
  | arrived phase => simp [hphase] at phase
  | branching _ stack nodes height twofold =>
      rw [stack] at hstack twofold
      cases hstack
      exact ⟨nodes, height, twofold⟩
  | leaving phase => exact nomatch hphase.symm.trans phase
  | exhausted phase => exact nomatch hphase.symm.trans phase

/-- The balance where a node has been left. -/
theorem Balanced.at_backtracking (h : Balanced opened c) (hphase : c.phase = .backtracking) :
    c.statistics.decisions + 1 = c.statistics.failures + c.statistics.solutions + opened ∧
      c.stack.length ≤ c.statistics.decisions ∧
      2 * opened ≤ c.statistics.decisions + candidatesLeft c.stack := by
  cases h with
  | arrived phase => simp [hphase] at phase
  | branching phase => exact nomatch hphase.symm.trans phase
  | leaving _ nodes height twofold => exact ⟨nodes, height, twofold⟩
  | exhausted phase => exact nomatch hphase.symm.trans phase

/-- The balance of a complete search. -/
theorem Balanced.at_end (h : Balanced opened c) (hphase : c.phase = .exhausted)
    (hstatus : c.status = some .complete) :
    c.statistics.decisions + 1 = c.statistics.failures + c.statistics.solutions + opened ∧
      2 * opened ≤ c.statistics.decisions := by
  cases h with
  | arrived phase => simp [hphase] at phase
  | branching phase => exact nomatch hphase.symm.trans phase
  | leaving phase => exact nomatch hphase.symm.trans phase
  | exhausted _ _ complete => exact complete hstatus

/-- The balance is a matter of phase, stack, counters and status. -/
theorem Balanced.congr {c' : SearchControl ρ τ} (h : Balanced opened c)
    (phase : c'.phase = c.phase) (stack : c'.stack = c.stack)
    (statistics : c'.statistics = c.statistics) (status : c'.status = c.status) :
    Balanced opened c' := by
  obtain ⟨goal, random, termination, stack', phase', root, statistics', status', initial,
    patience⟩ := c'
  cases phase
  cases stack
  cases statistics
  cases status
  cases h with
  | arrived phase nodes height twofold => exact .arrived phase nodes height twofold
  | branching phase stack nodes height twofold => exact .branching phase stack nodes height twofold
  | leaving phase nodes height twofold => exact .leaving phase nodes height twofold
  | exhausted phase nodes complete => exact .exhausted phase nodes complete

/-! ## What happens at a node -/

/-- Propagation that succeeds does not change the balance. -/
theorem Balanced.propagated (h : Balanced opened c) (hphase : c.phase = .propagating) :
    Balanced opened (c.goTo .selecting) := by
  obtain ⟨nodes, height, twofold⟩ := h.at_node (.inl hphase)
  exact .arrived (.inr rfl) nodes height twofold

/-- The node fails. -/
theorem Balanced.failed (h : Balanced opened c)
    (hphase : c.phase = .propagating ∨ c.phase = .selecting) : Balanced opened c.failed := by
  obtain ⟨nodes, height, twofold⟩ := h.at_node hphase
  have hnodes : c.statistics.decisions + 1 =
      c.statistics.failures + 1 + c.statistics.solutions + opened := by omega
  exact .leaving rfl hnodes height twofold

/-- The node gives a solution. -/
theorem Balanced.counted (h : Balanced opened c) (hphase : c.phase = .selecting) :
    Balanced opened ((counted c).goTo .backtracking) := by
  obtain ⟨nodes, height, twofold⟩ := h.at_node (.inr hphase)
  have hnodes : c.statistics.decisions + 1 =
      c.statistics.failures + (c.statistics.solutions + 1) + opened := by omega
  exact .leaving rfl hnodes height twofold

/-- A choice point is opened, with two candidates at least if there are any. -/
theorem Balanced.branched (h : Balanced opened c) (hphase : c.phase = .selecting) (v : Variable)
    {candidates : Domain} (htwo : (∃ x, x ∈ candidates) → 2 ≤ candidates.size) :
    Balanced (opened + 1) (c.opened v candidates) := by
  obtain ⟨nodes, height, twofold⟩ := h.at_node (.inr hphase)
  refine .branching rfl rfl (congrArg (· + 1) nodes) height fun hne => ?_
  have hsize := htwo hne
  change 2 * (opened + 1) ≤ c.statistics.decisions + (candidates.size + candidatesLeft c.stack)
  omega

/-- A trial of a candidate leads to another node, which fails at once if the store refuses
    the candidate. -/
theorem Balanced.tried (rule : TerminationRule τ) (h : Balanced opened c)
    (hphase : c.phase = .branching) {choice : ChoicePoint} {older : List ChoicePoint}
    (hstack : c.stack = choice :: older) {value : Int} (hvalue : value ∈ choice.remaining)
    (saved : Snapshot) :
    Balanced opened ((decided rule c choice older value saved).goTo .propagating) ∧
      Balanced opened (decided rule c choice older value saved).failed := by
  obtain ⟨nodes, height, twofold⟩ := h.at_branching hphase hstack
  have hsize := Domain.size_except hvalue
  have hleft := twofold ⟨value, hvalue⟩
  simp only [candidatesLeft] at hleft
  have hheight : older.length + 1 ≤ c.statistics.decisions + 1 := Nat.succ_le_succ height
  have hnodes : c.statistics.decisions + 1 + 1 =
      c.statistics.failures + 1 + c.statistics.solutions + opened := by omega
  have htwofold : 2 * opened ≤ c.statistics.decisions + 1 +
      ((choice.remaining.prune (.except value)).size + candidatesLeft older) := by omega
  exact ⟨.arrived (.inl rfl) nodes hheight htwofold, .leaving rfl hnodes hheight htwofold⟩

/-- The search goes back to a choice point. -/
theorem Balanced.resumed (h : Balanced opened c) (hphase : c.phase = .backtracking)
    {choice : ChoicePoint} {older : List ChoicePoint} {u : Store}
    (hundo : undoTrial t c.stack = (.ok (choice :: older), u)) :
    Balanced opened (resumed c (choice :: older)) := by
  obtain ⟨nodes, height, twofold⟩ := h.at_backtracking hphase
  obtain ⟨hcandidates, hlength⟩ := undoTrial_candidates hundo
  have hheight : older.length ≤ c.statistics.decisions :=
    Nat.le_trans (Nat.le_of_succ_le hlength) height
  refine .branching rfl rfl nodes hheight fun _ => ?_
  change 2 * opened ≤ c.statistics.decisions + candidatesLeft (choice :: older)
  rw [hcandidates]
  exact twofold

/-- No choice point has candidates left. -/
theorem Balanced.completed (h : Balanced opened c) (hphase : c.phase = .backtracking)
    {u : Store} (hundo : undoTrial t c.stack = (.ok [], u)) (runs : Nat) :
    Balanced opened (ended { c with stack := [] } .complete runs) := by
  obtain ⟨nodes, height, twofold⟩ := h.at_backtracking hphase
  rw [← (undoTrial_candidates hundo).1] at twofold
  exact .exhausted rfl (Nat.le_of_eq nodes.symm) fun _ => ⟨nodes, twofold⟩

/-- The search is ended for another reason than that it is complete. -/
theorem balanced_ended (h : c.statistics.failures + c.statistics.solutions + opened ≤
    c.statistics.decisions + 1) {status : SearchStatus} (hstatus : status ≠ .complete)
    (runs : Nat) : Balanced opened (ended c status runs) :=
  .exhausted rfl h fun hcomplete => absurd (Option.some.inj hcomplete) hstatus

/-! ## Moves -/

/-- **EVERY MOVE** keeps the balance. -/
theorem Balanced.moves (hpolicy : policy.ChoosesUnfixed) (h : Balanced opened s.control)
    (hmove : Moves policy rule s found s') :
    Balanced (opened + (s'.control.stack.length - s.control.stack.length)) s'.control := by
  have hasked : ∀ {c : SearchControl ρ τ}, Balanced opened c → Balanced opened (asked rule c) :=
    fun h => h.congr rfl rfl rfl rfl
  -- a move that opens no choice point
  have hnone : ∀ {c c' : SearchControl ρ τ}, c'.stack.length ≤ c.stack.length →
      Balanced opened c' → Balanced (opened + (c'.stack.length - c.stack.length)) c' := by
    intro c c' hle h
    rwa [Nat.sub_eq_zero_of_le hle, Nat.add_zero]
  have hfinish : ∀ {c c' : SearchControl ρ τ} {u : Store} {s' : Search ρ τ}
      {status : SearchStatus}, finish ⟨c', u⟩ status = (.ok (), s') →
      (∀ runs, Balanced opened (ended c' status runs)) →
      Balanced (opened + (s'.control.stack.length - c.stack.length)) s'.control := by
    intro c c' u s' status hfinish hended
    obtain ⟨runs, hcontrol⟩ := control_of_finish hfinish
    rw [hcontrol]
    exact hnone (Nat.zero_le _) (hended runs)
  cases hmove with
  | propagated phase run => exact hnone (Nat.le_refl _) (h.propagated phase)
  | inconsistent phase run => exact hnone (Nat.le_refl _) (h.failed (.inl phase))
  | stopped phase stop finished =>
      exact hfinish finished (balanced_ended (hasked h).nodes_le (by decide))
  | @opened c t v phase chosen owned =>
      have hgrown : opened + (c.stack.length + 1 - c.stack.length) = opened + 1 := by omega
      have hopened := (hasked h).branched phase v (Domain.two_le_size (hpolicy t _ v chosen))
      rwa [← hgrown] at hopened
  | incomplete phase chosen check =>
      exact hnone (Nat.le_refl _) ((hasked h).failed (.inr phase))
  | reported phase chosen check read =>
      exact hnone (Nat.le_refl _) ((hasked h).counted phase)
  | reportedLast phase chosen check read finished =>
      exact hfinish finished
        (balanced_ended ((hasked h).counted phase).nodes_le (by decide))
  | unopened phase stack =>
      cases h with
      | arrived phase' => simp [phase] at phase'
      | branching _ stack' => exact nomatch stack.symm.trans stack'
      | leaving phase' => exact nomatch phase.symm.trans phase'
      | exhausted phase' => exact nomatch phase.symm.trans phase'
  | @tried c t u choice older value random phase stack chosen candidate assigned =>
      have hdrawn : Balanced opened (drawn rule c random) := h.congr rfl rfl rfl rfl
      exact hnone (Nat.le_of_eq (congrArg List.length stack).symm)
        (hdrawn.tried rule phase stack candidate t.snapshot.1).1
  | @refused c t u choice older value random why phase stack chosen candidate assigned =>
      have hdrawn : Balanced opened (drawn rule c random) := h.congr rfl rfl rfl rfl
      exact hnone (Nat.le_of_eq (congrArg List.length stack).symm)
        (hdrawn.tried rule phase stack candidate t.snapshot.1).2
  | resumed phase undone =>
      exact hnone (undoTrial_candidates undone).2 (h.resumed phase undone)
  | completed phase undone finished => exact hfinish finished (h.completed phase undone)
  | exhausted phase => exact hnone (Nat.le_refl _) h

/-- The number of solutions and the peak change where they should. -/
theorem Moves.counters (h : Moves policy rule s found s') :
    s'.control.statistics.solutions = s.control.statistics.solutions + found.toList.length ∧
      s.control.statistics.decisions ≤ s'.control.statistics.decisions ∧
      (s'.control.statistics.peakDepth = s.control.statistics.peakDepth ∨
        s.control.phase = .selecting ∧
          (∃ v, policy.chooseVariable s.store s.control.goal.scope = .ok (some v)) ∧
          s'.control.statistics.peakDepth =
            max s.control.statistics.peakDepth (s.control.stack.length + 1)) := by
  cases h with
  | propagated phase run => exact ⟨rfl, Nat.le_refl _, .inl rfl⟩
  | inconsistent phase run => exact ⟨rfl, Nat.le_refl _, .inl rfl⟩
  | stopped phase stop finished =>
      obtain ⟨runs, hcontrol⟩ := control_of_finish finished
      rw [hcontrol]
      exact ⟨rfl, Nat.le_refl _, .inl rfl⟩
  | opened phase chosen owned =>
      exact ⟨rfl, Nat.le_refl _, .inr ⟨phase, ⟨_, chosen⟩, rfl⟩⟩
  | incomplete phase chosen check => exact ⟨rfl, Nat.le_refl _, .inl rfl⟩
  | reported phase chosen check read => exact ⟨rfl, Nat.le_refl _, .inl rfl⟩
  | reportedLast phase chosen check read finished =>
      obtain ⟨runs, hcontrol⟩ := control_of_finish finished
      rw [hcontrol]
      exact ⟨rfl, Nat.le_refl _, .inl rfl⟩
  | unopened phase stack => exact ⟨rfl, Nat.le_refl _, .inl rfl⟩
  | tried phase stack chosen candidate assigned => exact ⟨rfl, Nat.le_succ _, .inl rfl⟩
  | refused phase stack chosen candidate assigned => exact ⟨rfl, Nat.le_succ _, .inl rfl⟩
  | resumed phase undone => exact ⟨rfl, Nat.le_refl _, .inl rfl⟩
  | completed phase undone finished =>
      obtain ⟨runs, hcontrol⟩ := control_of_finish finished
      rw [hcontrol]
      exact ⟨rfl, Nat.le_refl _, .inl rfl⟩
  | exhausted phase => exact ⟨rfl, Nat.le_refl _, .inl rfl⟩

/-- The accounts stay right if there is room for another choice point where one is
    opened. -/
theorem Accounted.moves (hpolicy : policy.ChoosesUnfixed)
    (h : Accounted most reported opened s.control)
    (hroom : s.control.phase = .selecting →
      (∃ v, policy.chooseVariable s.store s.control.goal.scope = .ok (some v)) →
        s.control.stack.length < most)
    (hmove : Moves policy rule s found s') :
    Accounted most (reported ++ found.toList)
      (opened + (s'.control.stack.length - s.control.stack.length)) s'.control := by
  obtain ⟨hsolutions, hdecisions, hpeak⟩ := hmove.counters
  refine ⟨?_, ?_, ?_, h.balanced.moves hpolicy hmove⟩
  · rw [hsolutions, h.found, List.length_append]
  · have hold := h.peak
    rcases hpeak with heq | ⟨phase, _, heq⟩
    · omega
    · have hheight := (h.balanced.at_node (.inr phase)).2.1
      omega
  · have hold := h.breadth
    rcases hpeak with heq | ⟨phase, hchosen, heq⟩
    · omega
    · have hlt := hroom phase hchosen
      omega

/-! ## Open choice points -/

end Search

/-- The variables of a scope that are unfixed, each of them once. -/
def Domains.unfixedIn (D : Domains) (scope : List Variable) : Finset Variable :=
  scope.toFinset.filter fun v => (D.get v).isFixed = false

namespace Store

variable {t u : Store}

/-- Removing values fixes variables, and unfixes none. -/
theorem unfixedIn_subset (hle : u.domains.get ≤ t.domains.get) (hkeep : KeepsValues t u)
    (scope : List Variable) : u.domains.unfixedIn scope ⊆ t.domains.unfixedIn scope := by
  intro v hv
  obtain ⟨hscope, hfree⟩ := Finset.mem_filter.mp hv
  refine Finset.mem_filter.mpr ⟨hscope, Bool.eq_false_iff.mpr fun hfix => ?_⟩
  rw [isFixed_mono (hle v) (hkeep v (inhabited_of_isFixed hfix)) hfix] at hfree
  cases hfree

end Store

namespace Search

variable {ρ τ : Type}

/-- There are no more unfixed variables of the scope than there were at the beginning, less
    the number of open choice points. -/
def UnfixedBelow (base : Store) (scope : List Variable) (D : Domains) : Prop :=
  (D.unfixedIn scope).card + D.depth ≤ (base.domains.unfixedIn scope).card + (base.depth + 1)

/-- The variable of a choice point is unfixed, until it is tried. -/
def unfixedChart (base : Store) (scope : List Variable) : Chart where
  place := UnfixedBelow base scope
  choice D choice := UnfixedBelow base scope D ∧ choice.var ∈ D.unfixedIn scope
  left _ _ := True

variable {policy : Policy ρ} {base : Store} {goal : SearchGoal} {scope : List Variable}
  {choice : VariableChoice}

/-- A built-in choice is an unfixed variable of the scope. -/
theorem mem_unfixedIn_of_choose {t : Store} {v : Variable}
    (howns : ∀ v ∈ scope, t.owns v = true) (hchosen : choice.choose t scope = .ok (some v)) :
    v ∈ t.domains.unfixedIn scope := by
  rcases VariableChoice.choose_cases choice howns with ⟨hnone, _⟩ | ⟨w, hw, hsome, hfree⟩
  · rw [hchosen] at hnone
    cases hnone
  · rw [hchosen] at hsome
    cases hsome
    exact Finset.mem_filter.mpr ⟨List.mem_toFinset.mpr hw, hfree⟩

/-- **THE CHART OF UNFIXED VARIABLES** is right: every choice point has fixed one of the scope. -/
theorem unfixedChart_right (hvariable : policy.chooseVariable = choice.choose)
    (howns : ∀ v ∈ scope, base.owns v = true) :
    (unfixedChart base scope).Right policy base scope where
  propagated {t u} place run := by
    have hev := evolves_propagate t
    rw [run] at hev
    have hsub : u.domains.unfixedIn scope ⊆ t.domains.unfixedIn scope :=
      unfixedIn_subset hev.shrinks (keepsValues_propagate run) scope
    have hcard := Finset.card_le_card hsub
    have hdepth : u.domains.depth = t.domains.depth := hev.retraces.depth
    change _ + _ ≤ _ at place ⊢
    omega
  opened {t v} model place chosen := by
    refine ⟨place, mem_unfixedIn_of_choose (fun w hw => ?_) (hvariable ▸ chosen)⟩
    have hown := howns w hw
    rw [owns, decide_eq_true_eq] at hown ⊢
    exact hown.trans model.shape.1.symm
  resettled {D E choice choice'} known hget hdepth hvar _ := by
    have hsame : E.unfixedIn scope = D.unfixedIn scope := by
      rw [Domains.unfixedIn, hget]
      rfl
    obtain ⟨place, hmem⟩ := known
    refine ⟨?_, hvar ▸ hsame ▸ hmem⟩
    change _ + _ ≤ _
    rw [hsame, hdepth]
    exact place
  tried {t u choice value e} known assigned := by
    obtain ⟨place, hmem⟩ := known
    have hev := evolves_assign (t.snapshot.2.note e) choice.var value
    rw [assigned] at hev
    have hsub : u.domains.unfixedIn scope ⊆ t.domains.unfixedIn scope :=
      unfixedIn_subset (t := t.snapshot.2.note e) hev.shrinks (keepsValues_assign assigned) scope
    -- the variable of the choice point is fixed now
    have hfixed : choice.var ∉ u.domains.unfixedIn scope := fun h => by
      have hfree := (Finset.mem_filter.mp h).2
      rw [isFixed_assigned assigned] at hfree
      cases hfree
    have hcard := Finset.card_lt_card
      (Finset.ssubset_iff_subset_ne.mpr ⟨hsub, fun heq => hfixed (heq ▸ hmem)⟩)
    have hdepth : u.domains.depth = t.domains.depth + 1 :=
      hev.retraces.depth.trans (Domains.depth_checkpoint _)
    change _ + _ ≤ _ at place ⊢
    omega
  shrunk _ _ := trivial
  dropped _ := trivial
  split _ _ _ _ := trivial
  reported _ _ := trivial

/-- Where a choice point is opened, fewer are open than variables were unfixed at the
    beginning. -/
theorem Charted.room {s : Search ρ τ} {reported : List Solution}
    (hvariable : policy.chooseVariable = choice.choose)
    (howns : ∀ v ∈ goal.scope, base.owns v = true)
    (h : Charted (unfixedChart base goal.scope) base goal reported s)
    (hphase : s.control.phase = .selecting)
    (hchosen : ∃ v, policy.chooseVariable s.store s.control.goal.scope = .ok (some v)) :
    s.control.stack.length < (base.domains.unfixedIn goal.scope).card := by
  obtain ⟨amid, same, ladder, place, _, _⟩ := h.at_selecting hphase
  obtain ⟨v, hv⟩ := hchosen
  have hright := unfixedChart_right hvariable howns
  have hmem := (hright.opened amid.model place (same ▸ hv)).2
  have hpos := Finset.card_pos.mpr ⟨v, hmem⟩
  have hdepth := Ladder.depth_eq ladder
  change _ + _ ≤ _ at place
  omega

/-! ## Courses -/

/-- **THE LAWS OF CONSERVATION** for the counters of a search that has reported some
    solutions and opened some choice points. -/
structure Conserves (base : Store) (scope : List Variable) (reported : List Solution)
    (opened : Nat) (s : Search ρ τ) : Prop where
  solutions : s.control.statistics.solutions = reported.length
  nodes : s.control.statistics.failures + s.control.statistics.solutions ≤
    s.control.statistics.decisions + 1
  peak : s.control.statistics.peakDepth ≤ s.control.statistics.decisions + 1
  /-- At most as many choice points are open as distinct variables of the scope were
      unfixed. -/
  breadth : s.control.statistics.peakDepth ≤
    (scope.toFinset.filter fun v => (base.domain v).isFixed = false).card
  /-- Every node of a complete search is accounted for. -/
  complete : s.control.status = some .complete →
    s.control.statistics.decisions + 1 =
        s.control.statistics.failures + s.control.statistics.solutions + opened ∧
      s.control.statistics.decisions + 2 ≤
        2 * (s.control.statistics.failures + s.control.statistics.solutions)

variable {rule : TerminationRule τ} {begun s : Search ρ τ} {reported : List Solution}
  {opened most : Nat}

/-- The accounts of a search that has just been started are in order. -/
theorem accounted_of_start {random : ρ} {termination : τ}
    (h : start goal random termination base = .ok begun) :
    Accounted most [] 0 begun.control := by
  obtain ⟨saved, t, hcontrol | ⟨runs, hcontrol⟩⟩ := control_of_start h
  · rw [hcontrol]
    exact ⟨rfl, Nat.zero_le _, Nat.zero_le _,
      .arrived (.inl rfl) rfl (Nat.le_refl 0) (Nat.le_refl 0)⟩
  · rw [hcontrol]
    exact ⟨rfl, Nat.zero_le _, Nat.zero_le _,
      balanced_ended (Nat.zero_le 1) (by decide) runs⟩

section BuiltInChoices

variable (hvariable : policy.chooseVariable = choice.choose)
  (howns : ∀ v ∈ goal.scope, base.owns v = true) (hbegun : Begun base goal begun)

include hvariable howns hbegun

/-- On every course, fewer variables are unfixed the more choice points are open. -/
theorem Course.deepening (h : Course policy rule begun reported opened s) :
    Charted (unfixedChart base goal.scope) base goal reported s :=
  h.charted (unfixedChart_right hvariable howns)
    (hbegun.charted (Nat.le_of_eq (congrArg _ (Domains.depth_checkpoint _))) trivial)

/-- **EVERY COURSE** keeps its accounts. -/
theorem Course.accounted
    (hstart : Accounted (base.domains.unfixedIn goal.scope).card [] 0 begun.control)
    (h : Course policy rule begun reported opened s) :
    Accounted (base.domains.unfixedIn goal.scope).card reported opened s.control := by
  have hpolicy : policy.ChoosesUnfixed := fun s scope v hv => isFixed_of_choose (hvariable ▸ hv)
  induction h with
  | begun => exact hstart
  | moved course move ih =>
      have hplace := course.deepening hvariable howns hbegun
      exact ih.moves hpolicy (hplace.room hvariable howns) (step_moves move)
  | changed termination _ ih =>
      exact ⟨ih.found, ih.peak, ih.breadth, ih.balanced.congr rfl rfl rfl rfl⟩
  | @summarized _ _ s t _ _ summary ih =>
      rcases summarize_cases summary with rfl | hfinish
      · exact ih
      · obtain ⟨c, store⟩ := s
        obtain ⟨runs, hcontrol⟩ := control_of_finish hfinish
        rw [hcontrol]
        exact ⟨ih.found, ih.peak, ih.breadth,
          balanced_ended ih.balanced.nodes_le (by decide) runs⟩

end BuiltInChoices

/-- Accounts that are in order obey the laws. -/
theorem Accounted.conserves
    (h : Accounted (base.domains.unfixedIn goal.scope).card reported opened s.control)
    (hover : s.control.status ≠ none → s.control.phase = .exhausted) :
    Conserves base goal.scope reported opened s := by
  refine ⟨h.found, Nat.le_trans (Nat.le_add_right _ _) h.balanced.nodes_le, h.peak, h.breadth,
    fun hstatus => ?_⟩
  obtain ⟨nodes, twofold⟩ := h.balanced.at_end (hover (by simp [hstatus])) hstatus
  omega

/-- **STATISTICS ARE CONSERVED.** In every store, however it has been used, a search over
    any scope of its variables can be begun. With a built-in choice of variables the laws of
    conservation hold on every course that the search may take, and so between any two
    calls. -/
theorem statistics_are_conserved (harises : Arises base)
    (hscope : ∀ v ∈ goal.scope, base.owns v = true)
    (hvariable : policy.chooseVariable = choice.choose) (rule : TerminationRule τ) (random : ρ)
    (termination : τ) :
    ∃ begun, start goal random termination base = .ok begun ∧
      (∀ reported s, Session policy rule begun reported s →
        ∃ opened, Course policy rule begun reported opened s) ∧
      ∀ reported opened s, Course policy rule begun reported opened s →
        Conserves base goal.scope reported opened s := by
  obtain ⟨begun, hstart, hbegun⟩ := start_begun harises.kempt.stamped hscope random termination
  refine ⟨begun, hstart, fun reported s h => h.course, fun reported opened s h => ?_⟩
  have hplace := h.deepening hvariable hscope hbegun
  exact (h.accounted hvariable hscope hbegun (accounted_of_start hstart)).conserves
    hplace.exhausted_of_status

/-- A complete search over one variable of the pair: two decisions, two solutions, and one
    choice point. -/
theorem statistics_with_flaggedPair_are_conserved :
    ∃ (begun s : Search Generator Watch) (x y : Solution) (opened : Nat),
      start ⟨[⟨0, 0⟩, ⟨0, 0⟩], true, none⟩ (.ofSeed 7) (.new .indefinite) flaggedPair =
          .ok begun ∧
        Session (.of .smallestDomain .inDomainMax) Watch.rule begun [x, y] s ∧
        Course (.of .smallestDomain .inDomainMax) Watch.rule begun [x, y] opened s ∧
        s.control.status = some .complete ∧ s.control.statistics.solutions = 2 ∧
        s.control.statistics.decisions + 1 = s.control.statistics.failures + 2 + opened ∧
        s.control.statistics.peakDepth ≤ 1 := by
  have hscope : ∀ v ∈ (⟨[⟨0, 0⟩, ⟨0, 0⟩], true, none⟩ : SearchGoal).scope,
      flaggedPair.owns v = true := by
    decide +kernel
  have hvariable : (.of .smallestDomain .inDomainMax : Policy Generator).chooseVariable =
      VariableChoice.choose .smallestDomain := rfl
  obtain ⟨begun, hstart, hcourse, hlaws⟩ := statistics_are_conserved
    (reached_flaggedPair fun _ => True).arises hscope hvariable Watch.rule (Generator.ofSeed 7)
    (.new .indefinite)
  let answers (b : Search Generator Watch) :=
    let first := b.next (.of .smallestDomain .inDomainMax) Watch.rule
    let second := first.2.next (.of .smallestDomain .inDomainMax) Watch.rule
    let third := second.2.next (.of .smallestDomain .inDomainMax) Watch.rule
    (first.1, second.1, third.1, third.2.control.status)
  let x := flaggedPair.restriction [⟨0, 0⟩, ⟨0, 0⟩] fun _ => 1
  let y := flaggedPair.restriction [⟨0, 0⟩, ⟨0, 0⟩] fun _ => 0
  -- the answers up to the end, as the search computes them
  have hrun : (start ⟨[⟨0, 0⟩, ⟨0, 0⟩], true, none⟩ (Generator.ofSeed 7)
      (Watch.new .indefinite) flaggedPair).map answers =
      .ok (.ok (.solution x), .ok (.solution y), .ok .finished, some .complete) := by
    decide +kernel
  rw [hstart] at hrun
  obtain ⟨hfirst, hrest⟩ := Prod.mk.inj (Except.ok.inj hrun)
  obtain ⟨hsecond, hrest⟩ := Prod.mk.inj hrest
  obtain ⟨hthird, hstatus⟩ := Prod.mk.inj hrest
  have hsession : Session (.of .smallestDomain .inDomainMax) Watch.rule begun [x, y] _ :=
    .next (.next (.next .begun (Prod.ext_iff.mpr ⟨hfirst, rfl⟩))
      (Prod.ext_iff.mpr ⟨hsecond, rfl⟩)) (Prod.ext_iff.mpr ⟨hthird, rfl⟩)
  obtain ⟨opened, hopened⟩ := hcourse _ _ hsession
  have hconserves := hlaws _ _ _ hopened
  have hsolutions : _ = 2 := hconserves.solutions
  refine ⟨begun, _, x, y, opened, hstart, hsession, hopened, hstatus, hsolutions, ?_, ?_⟩
  · rw [← hsolutions]
    exact (hconserves.complete hstatus).1
  · exact Nat.le_trans hconserves.breadth (by decide +kernel)

end Search

end ConstraintSolver
