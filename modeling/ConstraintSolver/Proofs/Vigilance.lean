import ConstraintSolver.Proofs.Exactness

/-! # Vigilance — a constraint waits, or has nothing to prune

    If snapshots are only taken when no constraint waits, then in every store
    that has not failed, each constraint waits or is stable.  This holds
    between two operations, and also while a search has the store in its
    hands (`Observed`): the snapshots which a search takes for itself are
    taken at fixpoints, so what it goes back to is as good as what it left
    (`Watching.step`).

    So no constraint waits in vain, and none that could prune something is
    forgotten: when propagation ends well, all constraints are stable
    (`waiting_or_stable`). -/

namespace ConstraintSolver

open Constraint

namespace Store

variable {Q : Criterion} {s t u : Store} {live live' : List Snapshot}

/-! ## Single operations -/

theorem restoreOwned_snd (s : Store) (saved : Snapshot) :
    (s.restoreOwned saved).2 = (s.restore saved).2 := by
  rw [restoreOwned]
  split
  · rename_i t h
    rw [h]
  · rename_i t h
    rw [h]
  · rename_i t h
    rw [h]

/-- Snapshots may be given up. -/
theorem Sound.sublist (h : Sound Q s live) (hsub : live'.Sublist live) : Sound Q s live' :=
  ⟨h.wired, h.numbered, h.stamped, h.quiet, h.coherent,
    fun saved hsaved => h.alive saved (hsub.subset hsaved), h.order.sublist hsub⟩

/-- Restoring a live snapshot leaves the store sound, with the snapshots before it. -/
theorem Sound.restoreOwned {newer older : List Snapshot} {saved : Snapshot}
    (h : Sound Q s (newer ++ saved :: older)) {result : Except Misuse Unit}
    (hres : s.restoreOwned saved = (result, t)) : Sound Q t older := by
  have hsound := h.restore
  rwa [← restoreOwned_snd, hres] at hsound

/-- Restoring the newest snapshot leaves the store sound. -/
theorem Sound.restoreNewest {older : List Snapshot} {saved : Snapshot}
    (h : Sound Q s (saved :: older)) {result : Except Misuse Unit}
    (hres : s.restoreOwned saved = (result, t)) : Sound Q t older :=
  have hnone : Sound Q s ([] ++ saved :: older) := h
  hnone.restoreOwned hres

/-- Propagation that ends well leaves nothing waiting. -/
theorem Sound.propagate_ok (h : Sound Q s live) (hok : s.propagate = (.ok (), t)) :
    Sound Q t live ∧ t.failure = none ∧ t.agenda.toList = [] := by
  have hf := (Store.propagate_ok hok).1
  obtain ⟨_, hidle, hf'⟩ := propagate_coherent (h.coherent hf) h.wired h.numbered hok
  have hsound := h.propagate
  rw [hok] at hsound
  exact ⟨hsound, hf', hidle⟩

/-- A constraint that has been imposed is about variables of the store. -/
theorem owns_of_impose {c : Constraint} {id : ConstraintId} (h : s.impose c = (.ok id, t)) :
    ∀ v ∈ c.occurrences, s.owns v = true := by
  rw [impose] at h
  split at h
  · cases h
  · split at h
    · cases h
    · rename_i hall
      rw [Bool.not_eq_true', Bool.not_eq_false, List.all_eq_true] at hall
      exact fun v hv => hall v (mem_scope.mpr hv)

/-! ## The completion check -/

/-- Trying a value leaves the store sound, and at a fixpoint if the value is accepted. -/
theorem Sound.tryValue (h : Sound Q s live) {v : Variable} {value : Int} {held : Bool}
    (htry : s.tryValue v value = (held, t)) :
    Sound Q t live ∧ (held = true → t.failure = none ∧ t.agenda.toList = []) := by
  have hassigned := h.assign v value
  rw [Store.tryValue] at htry
  cases hassign : s.assign v value with
  | mk result u =>
      rw [hassign] at hassigned htry
      cases result with
      | error e =>
          cases htry
          exact ⟨hassigned, fun hheld => absurd hheld Bool.false_ne_true⟩
      | ok _ =>
          have hpropagated := hassigned.propagate
          simp only at htry
          cases hprop : u.propagate with
          | mk result w =>
              rw [hprop] at hpropagated htry
              cases result with
              | error e =>
                  cases htry
                  exact ⟨hpropagated, fun hheld => absurd hheld Bool.false_ne_true⟩
              | ok _ =>
                  cases htry
                  exact ⟨hpropagated, fun _ => (hassigned.propagate_ok hprop).2⟩

/-- Begun at a fixpoint, the check keeps the store sound. -/
def Preserves (Q : Criterion) (complete : Store → Except Misuse Bool × Store) : Prop :=
  ∀ s live found t, Sound Q s live → s.failure = none → s.agenda.toList = [] →
    complete s = (.ok found, t) → Sound Q t live

variable {complete : Store → Except Misuse Bool × Store}

/-- Trying a value and completing leaves the store sound. -/
theorem Preserves.trial (h : Preserves Q complete) (hs : Sound Q s live) {v : Variable}
    {value : Int} {found : Bool} (htrial : trial complete s v value = (.ok found, t)) :
    Sound Q t live := by
  rw [Store.trial] at htrial
  cases htry : s.tryValue v value with
  | mk held u =>
      obtain ⟨hu, hheld⟩ := hs.tryValue htry
      rw [htry] at htrial
      cases held with
      | false =>
          cases htrial
          exact hu
      | true =>
          obtain ⟨hf, hidle⟩ := hheld rfl
          exact h u live found t hu hf hidle htrial

/-- Trying values until one can be completed leaves the store sound. -/
theorem Preserves.anyCandidate (h : Preserves Q complete) (hundoes : Undoes complete)
    (v : Variable) (candidates : Domain) :
    Preserves Q (Store.anyCandidate complete v candidates) := by
  -- on the candidates that are left; after each trial the store is at its fixpoint again
  induction candidates using Domain.candidates_induction with
  | none candidates hmin =>
      intro s live found u hs hf hidle hok
      rw [anyCandidate_none hmin] at hok
      cases hok
      exact hs
  | some candidates value hmin ih =>
      intro s live found u hs hf hidle hok
      obtain ⟨found', t, htrial, hev⟩ :=
        trial_evolves hundoes (s := s.snapshot.2) hs.stamped.checkpoint v value
      have hback := restore_of_evolves hs.stamped hev
      have hsnap := hs.snapshot fun hf => (hs.coherent hf).resting hidle
      have hrestored := (h.trial hsnap htrial).restoreNewest hback
      rw [anyCandidate_some hmin htrial hback] at hok
      cases found' with
      | true =>
          cases hok
          exact hrestored
      | false => exact ih _ live found u hrestored hf rfl hok

/-- The check for a completion leaves the store sound. -/
theorem preserves_hasCompletion (Q : Criterion) : Preserves Q Store.hasCompletion := by
  have hcompletes : ∀ depth, Preserves Q (Store.completes depth) := by
    intro depth
    induction depth with
    | zero =>
        intro s live found t hs _ _ hok
        cases hok
        exact hs
    | succ depth ih =>
        intro s live found t hs hf hidle hok
        rw [Store.completes] at hok
        split at hok
        · cases hok
          exact hs
        · exact ih.anyCandidate (undoes_completes depth) _ _ s live found t hs hf hidle hok
  exact fun s => hcompletes (s.variableCount + 1) s

end Store

open Store

namespace Search

variable {ρ τ : Type}

/-! ## Searches -/

/-- The snapshots which choice points hold, the newest first. -/
def heldBy (stack : List ChoicePoint) : List Snapshot := stack.filterMap ChoicePoint.saved

/-- The snapshots which a search holds, the newest first. -/
def held (c : SearchControl ρ τ) : List Snapshot := heldBy c.stack ++ c.root.toList

/-- **WHAT A SEARCH KEEPS**: its store is sound with the snapshots that it holds, and
    nothing waits when a decision is due. -/
structure Kept (Q : Criterion) (live : List Snapshot) (s : Search ρ τ) : Prop where
  sound : Sound Q s.store (held s.control ++ live)
  idle : s.control.phase = .selecting ∨ s.control.phase = .branching →
    s.store.agenda.toList = []

variable {Q : Criterion} {base : Store} {live : List Snapshot} {s s' : Search ρ τ}
  {c : SearchControl ρ τ} {t u : Store} {stack : List ChoicePoint}

/-- Nothing has to be known of what waits while no decision is due. -/
theorem kept_of_phase (phase : Phase) (h : Sound Q s.store (held s.control ++ live))
    (hphase : s.control.phase = phase) (hdue : phase ≠ .selecting ∧ phase ≠ .branching) :
    Kept Q live s := by
  refine ⟨h, fun hsb => ?_⟩
  rw [hphase] at hsb
  exact absurd hsb (not_or.mpr hdue)

/-- What a search that has ended leaves behind. -/
theorem kept_finish (h : Sound Q t (heldBy stack ++ c.root.toList ++ live))
    {status : SearchStatus} (hok : finish ⟨c, t⟩ status = (.ok (), s')) : Kept Q live s' := by
  rw [finish] at hok
  cases hroot : c.root with
  | none =>
      simp only [hroot] at hok
      cases hok
      exact kept_of_phase .exhausted ((h.sublist (List.sublist_append_right ..)).note _) rfl
        (by decide)
  | some root =>
      simp only [hroot] at hok
      rw [hroot, Option.toList_some, List.append_assoc, List.singleton_append] at h
      split at hok
      · cases hok
      · rename_i u hu
        cases hok
        exact kept_of_phase .exhausted ((h.restoreOwned hu).note _) rfl (by decide)

/-- Undoing trials leaves the store sound, with nothing waiting if a choice point is left. -/
theorem sound_undoTrial (stack : List ChoicePoint) {t : Store} (hmodel : SameModel base t)
    (hladder : Climbs base t.domains stack) (h : Sound Q t (heldBy stack ++ live))
    {left : List ChoicePoint} (hok : undoTrial t stack = (.ok left, u)) :
    Sound Q u (heldBy left ++ live) ∧ (left ≠ [] → u.agenda.toList = []) := by
  induction stack generalizing t with
  | nil =>
      cases hok
      exact ⟨h, fun hne => absurd rfl hne⟩
  | cons choice older ih =>
      -- the newest choice point holds the newest snapshot, which is restored and given up
      obtain ⟨saved, w, htaken, hrestore, hclimbed, _⟩ := hladder.climb hmodel h.stamped
      have hheld : heldBy (choice :: older) = saved :: heldBy older := by
        rw [heldBy, List.filterMap_cons_some htaken]
        rfl
      rw [hheld] at h
      have hw : Sound Q w (heldBy older ++ live) := h.restoreNewest hrestore
      rw [undoTrial] at hok
      simp only [htaken, hrestore] at hok
      split at hok
      · exact ih hclimbed.model hclimbed.below hw hok
      · cases hok
        refine ⟨hw, fun _ => ?_⟩
        rw [hclimbed.agenda]
        rfl

/-! ### Steps -/

/-- A search that propagates keeps its store sound. -/
theorem kept_propagate (h : Sound Q t (held c ++ live)) :
    Kept Q live (Search.propagate ⟨c, t⟩) := by
  have hpropagated := h.propagate
  unfold Search.propagate
  cases hprop : t.propagate with
  | mk result u =>
      rw [hprop] at hpropagated
      simp only [hprop]
      cases result with
      | ok _ => exact ⟨hpropagated, fun _ => (h.propagate_ok hprop).2.2⟩
      | error why => exact kept_of_phase .backtracking (hpropagated.note _) rfl (by decide)

/-- A search that reports keeps its store sound. -/
theorem kept_report {found : Option Solution} (h : Sound Q t (held c ++ live))
    (hok : Search.report ⟨c, t⟩ = (.ok found, s')) : Kept Q live s' := by
  cases hread : readSolution t c.goal.scope with
  | error e =>
      rw [Search.report] at hok
      simp only [hread] at hok
      cases hok
  | ok entries =>
      rw [report_eq (x := ⟨entries⟩) hread] at hok
      split at hok
      · split at hok
        · cases hok
        · rename_i s hs
          cases hok
          exact kept_finish (c := counted c) (h.note _) hs
      · cases hok
        exact kept_of_phase .backtracking (h.note _) rfl (by decide)

/-- A search that selects keeps its store sound, and lets nothing wait. -/
theorem kept_select {policy : Policy ρ} {found : Option Solution}
    (h : Sound Q t (held c ++ live)) (hf : t.failure = none) (hidle : t.agenda.toList = [])
    (hok : Search.select policy ⟨c, t⟩ = (.ok found, s')) : Kept Q live s' := by
  rw [Search.select] at hok
  split at hok
  · cases hok
  · split at hok
    · cases hok
      exact ⟨h, fun _ => hidle⟩
    · cases hok
  · cases hcomplete : t.hasCompletion with
    | mk result u =>
        simp only [hcomplete] at hok
        cases result with
        | error e => cases hok
        | ok completed =>
            have hu := preserves_hasCompletion Q t _ completed u h hf hidle hcomplete
            cases completed with
            | true => exact kept_report hu hok
            | false =>
                cases hok
                exact kept_of_phase .backtracking (hu.note _) rfl (by decide)

/-- A decision takes a snapshot, and it does so at a fixpoint. -/
theorem kept_decide (rule : TerminationRule τ) {choice : ChoicePoint}
    {older : List ChoicePoint} (hstack : c.stack = choice :: older)
    (h : Sound Q t (held c ++ live)) (hidle : t.agenda.toList = []) (value : Int) :
    Kept Q live (Search.decide rule ⟨c, t⟩ choice older value) := by
  have hbelow : Sound Q t (heldBy older ++ c.root.toList ++ live) := by
    refine h.sublist ?_
    rw [held, hstack, List.append_assoc, List.append_assoc]
    exact ((List.sublist_cons_self choice older).filterMap _).append_right _
  have hsnap := hbelow.snapshot fun hf => (hbelow.coherent hf).resting hidle
  have hassigned := (hsnap.note (.decision choice.var value (older.length + 1))).assign
    choice.var value
  rw [decide_eq]
  cases hassign : (t.snapshot.2.note (.decision choice.var value (older.length + 1))).assign
      choice.var value with
  | mk result u =>
      rw [hassign] at hassigned
      cases result with
      | ok _ => exact kept_of_phase .propagating hassigned rfl (by decide)
      | error e => exact kept_of_phase .backtracking hassigned rfl (by decide)

/-- A search that branches takes a snapshot where nothing waits, and keeps its store sound. -/
theorem kept_branch {policy : Policy ρ} (rule : TerminationRule τ) {choice : ChoicePoint}
    {older : List ChoicePoint} (hstack : c.stack = choice :: older)
    (h : Sound Q t (held c ++ live)) (hidle : t.agenda.toList = [])
    (hok : Search.branch policy rule ⟨c, t⟩ = (.ok (), s')) : Kept Q live s' := by
  rcases branch_ok hok with ⟨hnil, _⟩ | ⟨_, _, value, random, htries, rfl⟩
  · cases hstack.symm.trans hnil
  · cases hstack.symm.trans htries.stack
    exact kept_decide (c := { c with random := random }) rule hstack h hidle value

/-- A search that goes back restores the snapshots it holds, the newest first. -/
theorem kept_backtrack (hmodel : SameModel base t) (hladder : Climbs base t.domains c.stack)
    (h : Sound Q t (held c ++ live)) (hok : Search.backtrack ⟨c, t⟩ = (.ok (), s')) :
    Kept Q live s' := by
  rw [held, List.append_assoc] at h
  rw [Search.backtrack] at hok
  split at hok
  · cases hok
  · rename_i u hundo
    obtain ⟨hu, _⟩ := sound_undoTrial c.stack hmodel hladder h hundo
    have hnone : Sound Q u (heldBy [] ++ c.root.toList ++ live) := hu
    exact kept_finish (c := { c with stack := [] }) hnone hok
  · rename_i choice older u hundo
    obtain ⟨hu, hidle⟩ := sound_undoTrial c.stack hmodel hladder h hundo
    cases hok
    refine ⟨?_, fun _ => hidle (List.cons_ne_nil _ _)⟩
    rw [held, List.append_assoc]
    exact hu

/-- Whether the search is stopped or goes on, what it keeps is kept. -/
theorem kept_unlessStopped (rule : TerminationRule τ) (h : Sound Q t (held c ++ live))
    {go : Search ρ τ → Except Misuse (Option Solution) × Search ρ τ} {found : Option Solution}
    (hgo : ∀ termination, go ⟨{ c with termination := termination }, t⟩ = (.ok found, s') →
      Kept Q live s')
    (hok : unlessStopped rule ⟨c, t⟩ go = (.ok found, s')) : Kept Q live s' := by
  rw [unlessStopped] at hok
  cases hstop : rule.shouldStop c.termination with
  | mk stop termination =>
      simp only [hstop] at hok
      cases stop with
      | true =>
          exact kept_finish (c := { c with termination := termination }) h (of_silently hok)
      | false => exact hgo termination hok

/-- **A STEP** that goes well keeps what the search keeps. -/
theorem Kept.step {policy : Policy ρ} {rule : TerminationRule τ} (h : Kept Q live s)
    (hstanding : Standing base s) {found : Option Solution}
    (hok : s.step policy rule = (.ok found, s')) : Kept Q live s' := by
  obtain ⟨c, t⟩ := s
  rw [Search.step] at hok
  cases hstanding with
  | moving phase amid ladder =>
      rcases phase with phase | phase
      · rw [phase] at hok
        cases hok
        exact kept_propagate h.sound
      · rw [phase] at hok
        exact kept_backtrack amid.model ladder h.sound (of_silently hok)
  | selecting phase amid ladder sane =>
      have hidle := h.idle (.inl phase)
      rw [phase] at hok
      exact kept_unlessStopped rule h.sound
        (fun termination hgo => kept_select (c := { c with termination := termination }) h.sound
          sane hidle hgo) hok
  | branching phase amid stack untried ladder sane =>
      have hidle := h.idle (.inr phase)
      rw [phase] at hok
      exact kept_unlessStopped rule h.sound
        (fun termination hgo => kept_branch (c := { c with termination := termination }) rule
          stack h.sound hidle (of_silently hgo)) hok
  | exhausted phase root ended returned =>
      rw [phase] at hok
      cases hok
      exact h

/-- A run that goes well does, too. -/
theorem Kept.run {policy : Policy ρ} {rule : TerminationRule τ} (steps : Nat)
    (h : Kept Q live s) (hstanding : Standing base s) {answer : Answer}
    (hok : Search.run policy rule steps s = (.ok answer, s')) : Kept Q live s' := by
  replace hok := ran_of_run hok
  induction hok with
  | ended => exact h
  | found _ step => exact h.step hstanding step
  | silent _ step _ ih => exact ih (h.step hstanding step) (hstanding.step step)

/-- A search that is summed up restores its root. -/
theorem Kept.summarize (h : Kept Q live s) {summary : SearchSummary}
    (hok : s.summarize = (.ok summary, s')) : Kept Q live s' := by
  obtain ⟨c, t⟩ := s
  rw [Search.summarize] at hok
  split at hok
  · cases hok
    exact h
  · split at hok
    · cases hok
    · rename_i s hs
      cases hok
      exact kept_finish h.sound hs

/-! ### Sessions -/

variable {goal : SearchGoal} {random : ρ} {termination : τ} {policy : Policy ρ}
  {rule : TerminationRule τ} {begun : Search ρ τ} {reported : List Solution}

/-- A search begins with a snapshot. -/
theorem kept_begin (h : Sound Q t live) (hrest : t.failure = none → Resting Q t t.domains)
    (hok : begin goal random termination t = (.ok (), s)) : Kept Q live s := by
  have hsnap : Sound Q _ (heldBy [] ++ (some t.snapshot.1).toList ++ live) :=
    (h.note (.searchStarted goal.scope.length goal.allSolutions goal.limit)).snapshot
      fun hf => (hrest hf).sameModel (evolves_note t _).toSameModel
  rw [begin_eq goal random termination t rfl] at hok
  split at hok
  · exact kept_finish (c := opening goal random termination t.snapshot.1 _) hsnap hok
  · cases hok
    exact kept_of_phase .propagating hsnap rfl (by decide)

/-- A search that has been started keeps its store sound. -/
theorem kept_start (h : Sound Q base live)
    (hrest : base.failure = none → Resting Q base base.domains)
    (hok : start goal random termination base = .ok begun) : Kept Q live begun := by
  rw [start] at hok
  split at hok
  · cases hok
  · simp only at hok
    split at hok
    · cases hok
    · rename_i s hbegin
      cases hok
      split at hbegin
      · exact kept_begin (h.note .emptyScope)
          (fun hf => (hrest hf).sameModel (evolves_note base _).toSameModel) hbegin
      · exact kept_begin h hrest hbegin

/-- **A SESSION** keeps what its search keeps. -/
theorem Session.kept (h : Session policy rule begun reported s) (hbegun : Begun base goal begun)
    (hkept : Kept Q live begun) : Kept Q live s := by
  induction h with
  | begun => exact hkept
  | next hsession hnext ih => exact ih.run _ (hsession.standing hbegun) hnext
  | changed termination _ ih => exact ⟨ih.sound, ih.idle⟩
  | summarized _ hsummary ih => exact ih.summarize hsummary

end Search

namespace Store

open Search (flaggedPair reached_flaggedPair)

/-! ## Every store -/

variable {allowed : Store → Prop}

/-- The stores that one gets to see: those that are reached, and those which a search
    has in its hands. -/
inductive Observed (allowed : Store → Prop) : Store → Prop
  | reached {s : Store} {live : List Snapshot} : Reached allowed s live → Observed allowed s
  | searching {base : Store} {live : List Snapshot} {ρ τ : Type} {policy : Policy ρ}
      {rule : TerminationRule τ} {goal : SearchGoal} {random : ρ} {termination : τ}
      {begun used : Search ρ τ} {reported : List Solution} (moment : allowed base)
      (start : Search.start goal random termination base = .ok begun)
      (session : Search.Session policy rule begun reported used) :
      Reached allowed base live → Observed allowed used.store

/-- **WHAT IS OBSERVED IS SOUND**, in between searches and while one is going on. -/
theorem Observed.sound (hkeeps : Keeps allowed Q) (h : Observed allowed s) :
    ∃ live, Sound Q s live := by
  cases h with
  | reached h => exact ⟨_, h.sound hkeeps⟩
  | searching moment start session h =>
      have hbase := h.sound hkeeps
      have hbegun := Search.kept_start hbase (fun hf => hkeeps _ moment (hbase.coherent hf)) start
      obtain ⟨_, hstart, hbegun'⟩ :=
        Search.start_begun hbase.stamped (owns_of_start start) _ _
      rw [start] at hstart
      cases hstart
      exact ⟨_, (session.kept hbegun' hbegun).sound⟩

/-- Every constraint of the store is stable. -/
def Settled (s : Store) : Prop := ∀ c ∈ s.constraints.toList, Stable c s.domains

/-- Where propagation succeeds in a sound store, every constraint is stable. -/
theorem Sound.settled (h : Sound .stable s live) (hok : s.propagate = (.ok (), t)) :
    t.Settled := by
  obtain ⟨hsound, hf, hidle⟩ := h.propagate_ok hok
  exact ((hsound.coherent hf).resting hidle).met

/-- **EVERY CONSTRAINT WAITS OR IS STABLE**, and all variables have values, in a store that
    has not failed, if snapshots are only taken when nothing waits.  So all
    constraints are stable when propagation has ended well, and when a
    constraint has been imposed. -/
theorem waiting_or_stable (hseen : Observed (fun s => s.agenda.isEmpty = true) s) :
    (s.failure = none →
        (∀ v ∈ s.allVariables, ∃ x, x ∈ s.domain v) ∧
          ∀ i c, s.constraints[i]? = some c →
            ConstraintId.ofIndex i ∈ s.agenda.toList ∨ Stable c s.domains) ∧
      (∀ t, s.propagate = (.ok (), t) → t.Settled) ∧
      ∀ c id t, (∀ v ∈ c.occurrences, s.Issued v) → s.constraintCount < ConstraintId.limit →
        s.impose c = (.ok id, t) → t.Settled := by
  obtain ⟨live, hsound⟩ := hseen.sound (keeps_of_idle .stable)
  refine ⟨fun hf => ?_, fun t hok => hsound.settled hok, fun c id t hissued hroom hok => ?_⟩
  · have hcoh := hsound.coherent hf
    refine ⟨hcoh.inhabited, fun i c hc => ?_⟩
    exact (hcoh.served i c hc).imp id fun h => h.resolve_left fun hcur => nomatch hcur
  · obtain ⟨hroot, hprop⟩ := impose_ok hok
    exact (hsound.enter hissued hroom (owns_of_impose hok) hroot).settled hprop

/-- The flag of the pair is set after a trial has been undone; the constraint has not
    been told yet. -/
def decidedPair : Store :=
  let trial := ((flaggedPair.snapshot.2.assign ⟨0, 0⟩ 1).2.assign ⟨0, 1⟩ 0).2.propagate.2
  ((trial.restore flaggedPair.snapshot.1).2.assign ⟨0, 2⟩ 1).2

/-- The first variable of the pair is less than the second. -/
def ascendingPair : Constraint := .ordering ⟨0, 0⟩ .less (.variable ⟨0, 1⟩)

/-- The pair can be observed after its flag has been set. -/
theorem observed_decidedPair : Observed (fun s => s.agenda.isEmpty = true) decidedPair := by
  have hsaved : Reached (fun s => s.agenda.isEmpty = true) flaggedPair.snapshot.2
      [flaggedPair.snapshot.1] := .snapshot (by decide +kernel) (reached_flaggedPair _)
  have htrial : Reached (fun s => s.agenda.isEmpty = true)
      ((flaggedPair.snapshot.2.assign ⟨0, 0⟩ 1).2.assign ⟨0, 1⟩ 0).2.propagate.2
      ([] ++ flaggedPair.snapshot.1 :: []) := .propagate (.assign _ _ (.assign _ _ hsaved))
  exact .reached (.assign _ _ htrial.restore)

/-- The constraint waits, as the flag has been set but not propagated. -/
theorem decidedPair_waits_or_is_stable :
    decidedPair.failure = none ∧ decidedPair.agenda.toList = [.ofIndex 0] ∧
      ((∀ v ∈ decidedPair.allVariables, ∃ x, x ∈ decidedPair.domain v) ∧
        ∀ i c, decidedPair.constraints[i]? = some c →
          ConstraintId.ofIndex i ∈ decidedPair.agenda.toList ∨ Stable c decidedPair.domains) ∧
      (∃ t, decidedPair.propagate = (.ok (), t) ∧ t.Settled) ∧
      ∃ id t, decidedPair.impose ascendingPair = (.ok id, t) ∧ t.Settled := by
  obtain ⟨hwaits, hpropagate, himpose⟩ := waiting_or_stable observed_decidedPair
  have hok : decidedPair.propagate.1 = .ok () := by decide +kernel
  have hok' : (decidedPair.impose ascendingPair).1 = .ok (.ofIndex 1) := by decide +kernel
  have himposed : decidedPair.impose ascendingPair =
      (.ok (.ofIndex 1), (decidedPair.impose ascendingPair).2) := Prod.ext hok' rfl
  exact ⟨by decide +kernel, by decide +kernel, hwaits (by decide +kernel),
    ⟨_, Prod.ext hok rfl, hpropagate _ (Prod.ext hok rfl)⟩,
    ⟨_, _, himposed, himpose _ _ _ (by decide +kernel) (by decide +kernel) himposed⟩⟩

end Store

end ConstraintSolver
