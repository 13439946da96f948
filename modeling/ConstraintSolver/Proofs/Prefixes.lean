import Mathlib.Data.List.Induction
import ConstraintSolver.Proofs.Stopping

/-! # Prefixes — the solutions that a stopped search reports

    What the whole search finds is a sequence of solutions.  A search with the
    same scope and the same random state reports a prefix of it, however it is
    stopped; if only its limit stops it, the prefix has the length that was
    asked for (`CutShort`).  A listener hears what is reported, and the first
    solution is the first of the sequence (`FirstFound`).

    All of this comes from what a single call can lead to
    (`Session.next_cases`). -/

namespace ConstraintSolver

open Constraint Store

/-- The part of a sequence of solutions that is asked for. -/
def SearchGoal.cut (goal : SearchGoal) (S : List Solution) : List Solution :=
  match goal.most with
  | some k => S.take k
  | none => S

/-- The policy chooses unfixed variables, and does not know what has been told. -/
structure Policy.Sensible {ρ : Type} (policy : Policy ρ) : Prop extends policy.Deaf where
  unfixed : policy.ChoosesUnfixed

/-- The built-in policies are sensible. -/
theorem Policy.sensible_of {ρ : Type} [RandomSource ρ] (onVariable : VariableChoice)
    (onValue : ValueChoice) : (Policy.of onVariable onValue : Policy ρ).Sensible :=
  ⟨deaf_of onVariable onValue, choosesUnfixed_of onVariable onValue⟩

/-- **A RECORDING** keeps the first solutions it hears, and counts all. -/
theorem Recording.foldl_hear (keep : Option Nat) (xs : List Solution) :
    (xs.foldl hear (new keep)).keep = keep ∧ (xs.foldl hear (new keep)).received = xs.length ∧
      (xs.foldl hear (new keep)).solutions.toList =
        match keep with
        | some limit => xs.take limit
        | none => xs := by
  induction xs using List.reverseRecOn with
  | nil => cases keep <;> simp [new]
  | append_singleton xs x ih =>
      -- the newest solution is kept unless the limit has been reached before it
      obtain ⟨hkeep, hreceived, hsolutions⟩ := ih
      rw [List.foldl_append, List.foldl_cons, List.foldl_nil, hear]
      refine ⟨hkeep, ?_, ?_⟩
      · rw [List.length_append, hreceived]
        rfl
      · simp only [hkeep]
        cases keep with
        | none => simp [hsolutions]
        | some limit =>
            have hsize := congrArg List.length hsolutions
            simp only [Array.length_toList, List.length_take] at hsize
            simp only
            split
            · rename_i hlt
              have hle : xs.length < limit := by omega
              simp only [Array.toList_push, hsolutions]
              rw [List.take_of_length_le (Nat.le_of_lt hle),
                List.take_of_length_le (by simp; omega)]
            · rename_i hge
              have hle : limit ≤ xs.length := by omega
              simp only [hsolutions]
              rw [List.take_append_of_le_length hle]

namespace Search

variable {ρ τ : Type} {policy : Policy ρ} {rule : TerminationRule τ} {base : Store}
  {goal : SearchGoal} {random : ρ} {termination : τ} {begun s t : Search ρ τ}
  {reported S : List Solution} {fault : Option Misuse}

/-! ## Calls -/

/-- The search ends before its patience does. -/
structure Timely (base : Store) (s : Search ρ τ) : Prop where
  waning : Waning base (largestSize base) base.variableCount s
  patient : s.control.stepsLeft (largestSize base) base.variableCount ≤ s.control.patience

/-- The number of steps that are left, at most. -/
def steps (base : Store) (s : Search ρ τ) : Nat :=
  s.control.stepsLeft (largestSize base) base.variableCount

theorem steps_exhausted (h : s.control.phase = .exhausted) : steps base s = 0 := by
  rw [steps, SearchControl.stepsLeft, h]

theorem timely_of_exhausted (h : s.control.phase = .exhausted) : Timely base s := by
  refine ⟨.exhausted h, ?_⟩
  change steps base s ≤ _
  rw [steps_exhausted h]
  exact Nat.zero_le _

theorem amid_unhindered : Amid base s.unhindered ↔ Amid base s :=
  ⟨fun h => ⟨h.root, h.status, ⟨h.model.names, h.model.constraints, h.model.watchers,
      h.model.shape⟩, h.stamped⟩,
    fun h => ⟨h.root, h.status, ⟨h.model.names, h.model.constraints, h.model.watchers,
      h.model.shape⟩, h.stamped⟩⟩

theorem drained_muted {u : Store} : u.muted.Drained ↔ u.Drained :=
  ⟨fun h => ⟨⟨h.quiet, h.agenda⟩, h.failure, h.idle⟩,
    fun h => ⟨⟨h.quiet, h.agenda⟩, h.failure, h.idle⟩⟩

/-- The steps that are left do not depend on what may stop the search. -/
theorem waning_unhindered {d n : Nat} : Waning base d n s.unhindered ↔ Waning base d n s := by
  constructor
  · intro h
    cases h with
    | propagating phase amid ladder roomy tidy =>
        exact .propagating phase (amid_unhindered.mp amid) ladder roomy ⟨tidy.quiet, tidy.agenda⟩
    | selecting phase amid ladder roomy drained =>
        exact .selecting phase (amid_unhindered.mp amid) ladder roomy (drained_muted.mp drained)
    | branching phase amid stack ladder branched drained =>
        exact .branching phase (amid_unhindered.mp amid) stack ladder branched
          (drained_muted.mp drained)
    | backtracking phase amid ladder => exact .backtracking phase (amid_unhindered.mp amid) ladder
    | exhausted phase => exact .exhausted phase
  · intro h
    cases h with
    | propagating phase amid ladder roomy tidy =>
        exact .propagating phase (amid_unhindered.mpr amid) ladder roomy ⟨tidy.quiet, tidy.agenda⟩
    | selecting phase amid ladder roomy drained =>
        exact .selecting phase (amid_unhindered.mpr amid) ladder roomy (drained_muted.mpr drained)
    | branching phase amid stack ladder branched drained =>
        exact .branching phase (amid_unhindered.mpr amid) stack ladder branched
          (drained_muted.mpr drained)
    | backtracking phase amid ladder => exact .backtracking phase (amid_unhindered.mpr amid) ladder
    | exhausted phase => exact .exhausted phase

/-- The condition may change from outside. -/
theorem Timely.changed (h : Timely base s) (termination : τ) :
    Timely base ⟨{ s.control with termination := termination }, s.store⟩ := by
  have hwaning := waning_unhindered.mpr h.waning
  exact ⟨waning_unhindered.mp hwaning, h.patient⟩

/-- A search that has just been begun has enough steps left. -/
theorem Launched.timely (h : Launched base goal random termination s)
    (hst : base.domains.Stamped) (htidy : base.Tidy) : Timely base s := by
  by_cases hzero : goal.Enough 0
  · exact timely_of_exhausted (h.ended hzero).1
  · obtain ⟨hwaning, hpatient⟩ := waning_whole hst htidy goal.scope random
    rw [← h.same hzero] at hwaning hpatient
    exact ⟨waning_unhindered.mp hwaning, hpatient⟩

/-- A call ends with a solution and fewer steps left, or because the search is over. -/
theorem Timely.next (h : Timely base s) (hpolicy : policy.ChoosesUnfixed) {answer : Answer}
    (hnext : s.next policy rule = (.ok answer, t)) :
    Timely base t ∧ ((∃ x, answer = .solution x ∧ steps base t < steps base s) ∨
      answer = t.control.finalAnswer ∧ t.control.phase = .exhausted) := by
  have hsteady := steady_run hnext
  rcases h.waning.run hpolicy h.patient hnext with ⟨x, hx, hwaning, hlt⟩ | ⟨hanswer, hphase⟩
  · refine ⟨⟨hwaning, ?_⟩, .inl ⟨x, hx, hlt⟩⟩
    rw [hsteady.patience]
    exact Nat.le_trans (Nat.le_of_lt hlt) h.patient
  · exact ⟨timely_of_exhausted hphase, .inr ⟨hanswer, hphase⟩⟩

/-- Summing up a search leaves it as it is, or ends it. -/
theorem phase_of_summarize {summary : SearchSummary} (h : s.summarize = (.ok summary, t)) :
    t = s ∨ t.control.phase = .exhausted := by
  rw [Search.summarize] at h
  split at h
  · cases h
    exact Or.inl rfl
  · split at h
    · cases h
    · rename_i hfinish
      cases h
      exact Or.inr (finish_ok hfinish).1

/-- A session always has enough steps left. -/
theorem Session.timely (hpolicy : policy.ChoosesUnfixed) (hbegun : Timely base begun)
    (h : Session policy rule begun reported s) : Timely base s := by
  induction h with
  | begun => exact hbegun
  | next _ hnext ih => exact (ih.next hpolicy hnext).1
  | changed termination _ ih => exact ih.changed termination
  | summarized _ hsummary ih =>
      rcases phase_of_summarize hsummary with rfl | hphase
      · exact ih
      · exact timely_of_exhausted hphase

/-- A session does not change what is looked for. -/
theorem Session.aim (h : Session policy rule begun reported s) :
    s.control.goal = begun.control.goal := by
  induction h with
  | begun => rfl
  | next _ hnext ih => exact (steady_run hnext).goal.trans ih
  | changed termination _ ih => exact ih
  | @summarized reported s t summary _ hsummary ih =>
      rw [Search.summarize] at hsummary
      split at hsummary
      · cases hsummary
        exact ih
      · split at hsummary
        · cases hsummary
        · rename_i hfinish
          cases hsummary
          exact (finish_ok hfinish).2.2.2.trans ih

/-- A search that is not over has no status. -/
theorem Standing.status_none (h : Standing base s) (hgoing : s.control.phase ≠ .exhausted) :
    s.control.status = none := by
  cases h with
  | moving phase amid ladder => exact amid.status
  | selecting phase amid ladder sane => exact amid.status
  | branching phase amid stack untried ladder sane => exact amid.status
  | exhausted phase root ended returned => exact absurd phase hgoing

/-- A search that is over has one. -/
theorem Standing.status_ne (h : Standing base s) (hphase : s.control.phase = .exhausted) :
    s.control.status ≠ none := by
  cases h with
  | moving phase amid ladder =>
      rw [hphase] at phase
      rcases phase with phase | phase <;> cases phase
  | selecting phase amid ladder sane => cases hphase.symm.trans phase
  | branching phase amid stack untried ladder sane => cases hphase.symm.trans phase
  | exhausted phase root ended returned => exact ended

/-- A prefix with no more solutions than are asked for is one of what is asked for. -/
theorem prefix_cut (h : reported <+: S) (hfew : ∀ k ∈ goal.most, reported.length ≤ k) :
    reported <+: goal.cut S := by
  rw [SearchGoal.cut]
  cases hmost : goal.most with
  | none => exact h
  | some k => exact List.prefix_take_iff.mpr ⟨h, hfew k hmost⟩

/-- Fewer are not enough. -/
theorem length_le_of_few (h : ¬ goal.Enough reported.length) :
    ∀ k ∈ goal.most, reported.length ≤ k := by
  intro k hk
  by_contra hlt
  exact h ⟨k, hk, Nat.le_of_lt (Nat.not_le.mp hlt)⟩

/-- Where too few solutions have been found, nothing is cut off. -/
theorem cut_of_few (hfew : ¬ goal.Enough S.length) : goal.cut S = S := by
  rw [SearchGoal.cut]
  cases hmost : goal.most with
  | none => rfl
  | some k => exact List.take_of_length_le (length_le_of_few hfew k hmost)

/-- **ASKED UNTIL THERE IS NO MORE**, the search answers with these solutions, and then
    with something else, or it breaks a rule. -/
inductive Reports (policy : Policy ρ) (rule : TerminationRule τ) :
    Search ρ τ → List Solution → Except Misuse Answer → Search ρ τ → Prop
  | found {s t u : Search ρ τ} {x : Solution} {xs : List Solution} {last : Except Misuse Answer}
      (next : s.next policy rule = (.ok (.solution x), t))
      (later : Reports policy rule t xs last u) : Reports policy rule s (x :: xs) last u
  | ends {s u : Search ρ τ} {last : Except Misuse Answer} (next : s.next policy rule = (last, u))
      (nothing : ∀ x, last ≠ .ok (.solution x)) : Reports policy rule s [] last u

/-- The answer at the end is not a solution. -/
theorem finalAnswer_ne (c : SearchControl ρ τ) (x : Solution) : c.finalAnswer ≠ .solution x := by
  intro heq
  have hnothing := solutions_finalAnswer c
  rw [heq] at hnothing
  cases hnothing

/-- The search is not stopped from now on, and has not been so far. -/
structure Unstopped (rule : TerminationRule τ) (c : SearchControl ρ τ) : Prop where
  never : rule.NeverStops c.termination
  status : c.status ≠ some .terminated

theorem Unstopped.steady {c c' : SearchControl ρ τ} (h : Unstopped rule c)
    (hsteady : Steady rule c c') : Unstopped rule c' :=
  ⟨hsteady.endless h.never, hsteady.unstopped h.never h.status⟩

/-- What a listener has heard, told with the state of the condition each time. -/
def hearing {σ : Type} (listen : Solution → σ × τ → σ × τ) (heard : σ)
    (told : List (Solution × τ)) : σ :=
  told.foldl (fun heard p => (listen p.1 (heard, p.2)).1) heard

/-- The listener does not stop a search that is never stopped. -/
def Quiet {σ : Type} (rule : TerminationRule τ) (listen : Solution → σ × τ → σ × τ) : Prop :=
  ∀ x heard w, rule.NeverStops w → rule.NeverStops (listen x (heard, w)).2

section Launched

variable (hst : base.domains.Stamped) (htidy : base.Tidy) (hpolicy : policy.Sensible)
  (hbegun : Begun base goal begun)
  (hlaunched : Launched base goal random termination begun)
  (htotals : Totals policy (whole goal.scope random base) S fault)

/-- What is known of a search by how it has ended. -/
structure Outcome (goal : SearchGoal) (S : List Solution) (fault : Option Misuse)
    (reported : List Solution) (status : Option SearchStatus) : Prop where
  /-- The search has reported a prefix of what is asked for. -/
  ordered : reported <+: goal.cut S
  /-- If it has reached its limit, it has reported as much as is asked for. -/
  limited : status = some .solutionLimitReached → goal.Enough S.length ∧ reported = goal.cut S
  /-- If it is complete, it has reported everything, and has not reached its limit. -/
  complete : status = some .complete → ¬ goal.Enough S.length ∧ reported = S ∧ fault = none

include hpolicy hbegun hlaunched htotals

/-- **A SESSION** has reported a part of what is asked for. Once it is over, it says
    why, and whether that is all there is. -/
theorem Session.outcome (h : Session policy rule begun reported s) :
    Outcome goal S fault reported s.control.status := by
  obtain ⟨hfollows, _⟩ := h.follows hpolicy.toDeaf hbegun hlaunched.follows hlaunched.nothing
  have haim : s.control.goal = goal := h.aim.trans hlaunched.aim
  cases hfollows with
  | along runs few ended =>
      rw [haim] at few
      refine ⟨prefix_cut (htotals.rest runs) (length_le_of_few few), fun hstatus => ?_,
        fun hstatus => ?_⟩
      · by_cases hphase : s.control.phase = .exhausted
        · cases hstatus.symm.trans (ended hphase)
        · cases hstatus.symm.trans ((h.standing hbegun).status_none hphase)
      · have hphase : s.control.phase = .exhausted := by
          by_contra hgoing
          cases hstatus.symm.trans ((h.standing hbegun).status_none hgoing)
        have hfinal : Final policy .never s.unhindered none := hphase
        obtain ⟨heq, hfault⟩ := htotals.final runs hfinal
        exact ⟨heq ▸ few, heq, hfault.symm⟩
  | limited runs phase status most =>
      rw [haim] at most
      have hprefix := htotals.rest runs
      have hcut : reported = goal.cut S := by
        rw [SearchGoal.cut, most]
        exact List.prefix_iff_eq_take.mp hprefix
      refine ⟨hcut ▸ List.prefix_refl _, fun _ => ⟨⟨_, most, hprefix.length_le⟩, hcut⟩,
        fun hstatus => ?_⟩
      cases hstatus.symm.trans status
  | stopped runs phase status few =>
      rw [haim] at few
      refine ⟨prefix_cut (htotals.rest runs) (length_le_of_few few), fun hstatus => ?_,
        fun hstatus => ?_⟩
      · cases hstatus.symm.trans status
      · cases hstatus.symm.trans status

include hst htidy

/-- **A CALL** breaks a rule where the whole search does, or finds a solution and leaves
    fewer steps, or the search is over. -/
theorem Session.next_cases (h : Session policy rule begun reported s) :
    (∃ e t, s.next policy rule = (.error e, t) ∧ ¬ goal.Enough S.length ∧ reported = S ∧
        fault = some e) ∨
      (∃ x t, s.next policy rule = (.ok (.solution x), t) ∧
        Session policy rule begun (reported ++ [x]) t ∧ steps base t < steps base s) ∨
      ∃ t, s.next policy rule = (.ok t.control.finalAnswer, t) ∧
        Session policy rule begun reported t ∧ t.control.phase = .exhausted := by
  obtain ⟨hfollows, hcounts⟩ :=
    h.follows hpolicy.toDeaf hbegun hlaunched.follows hlaunched.nothing
  have htimely := h.timely hpolicy.unfixed (hlaunched.timely hst htidy)
  cases hnext : s.next policy rule with
  | mk result t =>
      cases result with
      | error e =>
          obtain ⟨steps, u, hruns, hfinal⟩ :=
            hfollows.run_error hpolicy.toDeaf hcounts (h.standing hbegun) hnext
          obtain ⟨heq, hfault⟩ := htotals.final hruns hfinal
          -- a search that is over does not fail any more
          have hover : s.control.phase ≠ .exhausted := by
            intro hphase
            rw [Search.next, run_exhausted hphase] at hnext
            cases hnext
          refine Or.inl ⟨e, t, rfl, ?_, heq, hfault.symm⟩
          cases hfollows with
          | along runs few ended => rwa [h.aim.trans hlaunched.aim, heq] at few
          | limited runs phase status most => exact absurd phase hover
          | stopped runs phase status few => exact absurd phase hover
      | ok answer =>
          have hsession := h.next hnext
          obtain ⟨_, ⟨x, rfl, hlt⟩ | ⟨rfl, hphase⟩⟩ := htimely.next hpolicy.unfixed hnext
          · exact Or.inr (Or.inl ⟨x, t, rfl, hsession, hlt⟩)
          · rw [solutions_finalAnswer, List.append_nil] at hsession
            exact Or.inr (Or.inr ⟨t, rfl, hsession, hphase⟩)

/-- **ALL CALLS**, from anywhere in a session on. -/
theorem Session.reports (h : Session policy rule begun reported s) :
    ∃ xs last u, Reports policy rule s xs last u ∧
      ((∃ e, last = .error e ∧ ¬ goal.Enough S.length ∧ reported ++ xs = S ∧ fault = some e) ∨
        last = .ok u.control.finalAnswer ∧ Session policy rule begun (reported ++ xs) u ∧
          u.control.phase = .exhausted ∧
          (Unstopped rule s.control → u.control.status ≠ some .terminated)) := by
  -- on the steps that are left, which are fewer after each solution
  induction hsteps : steps base s using Nat.strongRecOn generalizing s reported with
  | ind left ih =>
      rcases h.next_cases hst htidy hpolicy hbegun hlaunched htotals with
        ⟨e, t, hnext, hfew, heq, hfault⟩ | ⟨x, t, hnext, hsession, hlt⟩ |
        ⟨t, hnext, hsession, hphase⟩
      · refine ⟨[], .error e, t, .ends hnext (fun _ h => nomatch h),
          .inl ⟨e, rfl, hfew, ?_, hfault⟩⟩
        rw [List.append_nil, heq]
      · obtain ⟨xs, last, u, hreports, hend⟩ := ih _ (hsteps ▸ hlt) hsession rfl
        refine ⟨x :: xs, last, u, .found hnext hreports, ?_⟩
        rw [List.append_assoc, List.singleton_append] at hend
        refine hend.imp id fun ⟨hlast, hu, hphase, hstatus⟩ => ⟨hlast, hu, hphase, fun hs => ?_⟩
        exact hstatus (hs.steady (steady_run hnext))
      · refine ⟨[], _, t, .ends hnext fun x hx => ?_, .inr ⟨rfl, ?_, hphase, fun hs => ?_⟩⟩
        · exact finalAnswer_ne _ x (Except.ok.inj hx)
        · rw [List.append_nil]
          exact hsession
        · exact (hs.steady (steady_run hnext)).status

/-- **LABELING** passes on what a session reports, in order. -/
theorem Session.collects {σ : Type} (listen : Solution → σ × τ → σ × τ) (heard : σ)
    (h : Session policy rule begun reported s) {fuel : Nat} (hfuel : steps base s ≤ fuel) :
    (∃ e t, fault = some e ∧ collect policy rule listen fuel s heard = (.error e, t)) ∨
      ∃ told t, collect policy rule listen fuel s heard = (.ok (hearing listen heard told), t) ∧
        Session policy rule begun (reported ++ told.map Prod.fst) t ∧
        t.control.phase = .exhausted ∧
        (Unstopped rule s.control → Quiet rule listen →
          t.control.status ≠ some .terminated) := by
  induction fuel generalizing s reported heard with
  | zero =>
      refine Or.inr ⟨[], s, rfl, ?_, phase_of_stepsLeft (Nat.le_zero.mp hfuel),
        fun hs _ => hs.status⟩
      rw [List.map_nil, List.append_nil]
      exact h
  | succ fuel ih =>
      rcases h.next_cases hst htidy hpolicy hbegun hlaunched htotals with
        ⟨e, t, hnext, _, _, hfault⟩ | ⟨x, ⟨c, store⟩, hnext, hsession, hlt⟩ |
        ⟨t, hnext, hsession, hphase⟩
      · refine Or.inl ⟨e, t, hfault, ?_⟩
        rw [Search.collect, hnext]
      -- the listener may have changed the condition, and the session goes on with that
      · have hchanged := hsession.changed (listen x (heard, c.termination)).2
        have hlt' : steps base ⟨{ c with termination := (listen x (heard, c.termination)).2 },
            store⟩ ≤ fuel := Nat.le_of_lt_succ (Nat.lt_of_lt_of_le hlt hfuel)
        have hcollect : collect policy rule listen (fuel + 1) s heard =
            collect policy rule listen fuel
              ⟨{ c with termination := (listen x (heard, c.termination)).2 }, store⟩
              (listen x (heard, c.termination)).1 := by
          rw [Search.collect, hnext]
        rw [hcollect]
        refine (ih _ hchanged hlt').imp id ?_
        rintro ⟨told, t, ht, hsession', hphase, hstatus⟩
        refine ⟨(x, c.termination) :: told, t, ht, ?_, hphase, fun hs hquiet => ?_⟩
        · rw [List.append_assoc] at hsession'
          exact hsession'
        · have hc := hs.steady (steady_run hnext)
          exact hstatus ⟨hquiet _ _ _ hc.never, hc.status⟩ hquiet
      · have hcollect : collect policy rule listen (fuel + 1) s heard = (.ok heard, t) :=
          collect_of_next listen heard hnext (solutions_finalAnswer _) fuel
        refine Or.inr ⟨[], t, hcollect, ?_, hphase, fun hs _ => ?_⟩
        · rw [List.map_nil, List.append_nil]
          exact hsession
        · exact (hs.steady (steady_run hnext)).status

end Launched

/-- **A SEARCH CUT SHORT**: what it reports of all that there is. -/
structure CutShort (policy : Policy ρ) (rule : TerminationRule τ) (goal : SearchGoal)
    (termination : τ) (S : List Solution) (fault : Option Misuse) (begun : Search ρ τ) : Prop where
  /-- However it is used and stopped, a prefix is reported, and the status is right. -/
  outcome : ∀ reported s, Session policy rule begun reported s →
    Outcome goal S fault reported s.control.status
  /-- If it is never stopped, exactly what is asked for is reported. -/
  unstopped : rule.NeverStops termination → ∃ last u,
    Reports policy rule begun (goal.cut S) last u ∧
      (goal.Enough S.length →
        last = .ok .finished ∧ u.control.status = some .solutionLimitReached) ∧
      (¬ goal.Enough S.length → fault = none →
        last = .ok (if S = [] then .unsatisfiable else .finished) ∧
          u.control.status = some .complete) ∧
      (¬ goal.Enough S.length → ∀ e, fault = some e → last = .error e)
  /-- Labeling tells a listener what is reported, in order. -/
  labelled : ∀ {σ : Type} (listen : Solution → σ × τ → σ × τ) (heard : σ),
    (∃ e t, fault = some e ∧ label policy rule listen begun heard = (.error e, t)) ∨
      ∃ told t status, label policy rule listen begun heard =
          (.ok (⟨status, t.control.statistics⟩, hearing listen heard told), t) ∧
        Session policy rule begun (told.map Prod.fst) t ∧ t.control.status = some status ∧
        (rule.NeverStops termination → Quiet rule listen → status ≠ .terminated)
  /-- A recording keeps the first of them, and counts all. -/
  recorded : ∀ keep : Option Nat,
    (∃ e t, fault = some e ∧
      label policy rule (fun x p => (p.1.hear x, p.2)) begun (Recording.new keep) = (.error e, t)) ∨
      ∃ reported recording summary t,
        label policy rule (fun x p => (p.1.hear x, p.2)) begun (Recording.new keep) =
          (.ok (summary, recording), t) ∧
        Session policy rule begun reported t ∧ recording.received = reported.length ∧
        recording.solutions.toList =
          match keep with
          | some limit => reported.take limit
          | none => reported

/-- The first of all solutions, or what comes instead of it. -/
def firstOf (S : List Solution) (fault : Option Misuse) : Except Misuse (Option Solution) :=
  match S, fault with
  | x :: _, _ => .ok (some x)
  | [], none => .ok none
  | [], some e => .error e

/-- If one solution is asked for and none reported, there is none. -/
theorem Outcome.firstOf_nil {status : SearchStatus} (h : Outcome goal S fault [] (some status))
    (hmost : goal.most = some 1) (hstatus : status ≠ .terminated) : firstOf S fault = .ok none := by
  cases status with
  | terminated => exact absurd rfl hstatus
  | solutionLimitReached =>
      obtain ⟨⟨k, hk, hle⟩, hnil⟩ := h.limited rfl
      rw [SearchGoal.cut, hmost] at hnil
      cases hmost.symm.trans hk
      cases S with
      | nil => cases hle
      | cons y ys => cases hnil
  | complete =>
      obtain ⟨_, rfl, rfl⟩ := h.complete rfl
      rfl

/-- **THE FIRST SOLUTION** is found unless the search is stopped before that. -/
structure FirstFound (policy : Policy ρ) (rule : TerminationRule τ) (termination : τ)
    (S : List Solution) (fault : Option Misuse) (begun : Search ρ τ) : Prop where
  found : ∀ x, (first policy rule begun).1 = .ok (some x) → S.head? = some x
  unstopped : rule.NeverStops termination → (first policy rule begun).1 = firstOf S fault

section Launched

variable (hst : base.domains.Stamped) (htidy : base.Tidy) (hpolicy : policy.Sensible)
  (hbegun : Begun base goal begun)
  (hlaunched : Launched base goal random termination begun)
  (htotals : Totals policy (whole goal.scope random base) S fault)

include hst htidy hpolicy hbegun hlaunched htotals

/-- A listener hears the solutions up to the fault, or up to the end. -/
theorem Launched.labels {σ : Type} (listen : Solution → σ × τ → σ × τ) (heard : σ) :
    (∃ e t, fault = some e ∧ label policy rule listen begun heard = (.error e, t)) ∨
      ∃ told t status, label policy rule listen begun heard =
          (.ok (⟨status, t.control.statistics⟩, hearing listen heard told), t) ∧
        Session policy rule begun (told.map Prod.fst) t ∧ t.control.status = some status ∧
        (rule.NeverStops termination → Quiet rule listen → status ≠ .terminated) := by
  have hfuel : steps base begun ≤ begun.control.patience := (hlaunched.timely hst htidy).patient
  have hcollects := (Session.begun : Session policy rule begun [] begun).collects hst htidy
    hpolicy hbegun hlaunched htotals listen heard hfuel
  refine hcollects.imp ?_ ?_
  · rintro ⟨e, t, hfault, ht⟩
    refine ⟨e, t, hfault, ?_⟩
    rw [label, ht]
  · rintro ⟨told, t, ht, hsession, hphase, hstatus⟩
    rw [List.nil_append] at hsession
    obtain ⟨status, hsome⟩ := Option.ne_none_iff_exists'.mp
      ((hsession.standing hbegun).status_ne hphase)
    refine ⟨told, t, status, ?_, hsession, hsome, fun hnever hquiet => ?_⟩
    · rw [label, ht]
      simp only [Search.summarize, hsome]
    · have hs := hstatus ⟨hlaunched.endless rule hnever, hlaunched.unstopped⟩ hquiet
      rintro rfl
      exact hs hsome

/-- Asked until there is no more, a search that is never stopped reports exactly what is
    asked for. -/
theorem Launched.unstopped_reports (hnever : rule.NeverStops termination) :
    ∃ last u, Reports policy rule begun (goal.cut S) last u ∧
      (goal.Enough S.length →
        last = .ok .finished ∧ u.control.status = some .solutionLimitReached) ∧
      (¬ goal.Enough S.length → fault = none →
        last = .ok (if S = [] then .unsatisfiable else .finished) ∧
          u.control.status = some .complete) ∧
      (¬ goal.Enough S.length → ∀ e, fault = some e → last = .error e) := by
  obtain ⟨xs, last, u, hreports, ⟨e, hlast, hfew, heq, hfault⟩ | ⟨hlast, hsession, hphase, hs⟩⟩ :=
    (Session.begun : Session policy rule begun [] begun).reports hst htidy hpolicy hbegun
      hlaunched htotals
  · refine ⟨last, u, ?_, fun h => absurd h hfew, fun _ hnone => ?_, fun _ e' he' => ?_⟩
    · rw [cut_of_few hfew, ← heq]
      exact hreports
    · cases hfault.symm.trans hnone
    · cases hfault.symm.trans he'
      exact hlast
  · rw [List.nil_append] at hsession
    have houtcome := hsession.outcome hpolicy hbegun hlaunched htotals
    obtain ⟨_, hcounts⟩ :=
      hsession.follows hpolicy.toDeaf hbegun hlaunched.follows hlaunched.nothing
    have hstatus := hs ⟨hlaunched.endless rule hnever, hlaunched.unstopped⟩
    obtain ⟨status, hsome⟩ := Option.ne_none_iff_exists'.mp
      ((hsession.standing hbegun).status_ne hphase)
    refine ⟨last, u, ?_⟩
    cases status with
    | terminated => exact absurd hsome hstatus
    | solutionLimitReached =>
        obtain ⟨henough, heq⟩ := houtcome.limited hsome
        rw [← heq]
        refine ⟨hreports, fun _ => ⟨?_, hsome⟩, fun h => absurd henough h,
          fun h => absurd henough h⟩
        rw [hlast, SearchControl.finalAnswer, hsome]
    | complete =>
        obtain ⟨hfew, heq, hfault⟩ := houtcome.complete hsome
        rw [cut_of_few hfew, ← heq]
        refine ⟨hreports, fun h => absurd h (heq ▸ hfew), fun _ _ => ⟨?_, hsome⟩, fun _ e he => ?_⟩
        · rw [hlast, SearchControl.finalAnswer, hsome]
          simp only [hcounts.trans rfl, List.length_eq_zero_iff]
        · cases hfault.symm.trans he

/-- **WHATEVER STOPS IT**, a search that has been begun is cut short at most. -/
theorem Launched.cutShort : CutShort policy rule goal termination S fault begun := by
  refine ⟨fun reported s h => h.outcome hpolicy hbegun hlaunched htotals,
    fun hnever => hlaunched.unstopped_reports hst htidy hpolicy hbegun htotals hnever,
    fun listen heard => hlaunched.labels hst htidy hpolicy hbegun htotals listen heard,
    fun keep => ?_⟩
  refine (hlaunched.labels hst htidy hpolicy hbegun htotals (fun x p => (p.1.hear x, p.2))
    (Recording.new keep)).imp id ?_
  rintro ⟨told, t, status, ht, hsession, _⟩
  have hheard : hearing (τ := τ) (fun x p => (p.1.hear x, p.2)) (Recording.new keep) told =
      (told.map Prod.fst).foldl Recording.hear (Recording.new keep) := by
    rw [List.foldl_map]
    rfl
  obtain ⟨_, hreceived, hsolutions⟩ := Recording.foldl_hear keep (told.map Prod.fst)
  rw [hheard] at ht
  exact ⟨_, _, _, t, ht, hsession, hreceived, hsolutions⟩

/-- **THE FIRST SOLUTION** is what a search for just one reports. -/
theorem Launched.firstFound {goal' : SearchGoal} (hgoal : goal = goal'.justOne) :
    FirstFound policy rule termination S fault begun := by
  have hmost : goal.most = some 1 := by
    rw [hgoal]
    rfl
  have hrelease : ∀ {reported s}, Session policy rule begun reported s →
      ∃ u, s.release = (.ok (), u) := fun h => (h.release hbegun).imp fun _ hu => hu.1
  have hnext := (Session.begun : Session policy rule begun [] begun).next_cases hst htidy hpolicy
    hbegun hlaunched htotals
  rcases hnext with ⟨e, t, hnext, hfew, rfl, hfault⟩ | ⟨x, t, hnext, hsession, _⟩ |
    ⟨t, hnext, hsession, hphase⟩
  -- the source of randomness broke a rule
  · have hfirst : (first policy rule begun).1 = .error e := by rw [first, hnext]
    refine ⟨fun x h => ?_, fun _ => ?_⟩
    · rw [hfirst] at h
      cases h
    · rw [hfirst, hfault]
      rfl
  -- a solution, which is the first of the list
  · obtain ⟨u, hu⟩ := hrelease hsession
    have hfirst : (first policy rule begun).1 = .ok (some x) := by
      rw [first_of_next hnext hu]
      rfl
    have hprefix := (hsession.outcome hpolicy hbegun hlaunched htotals).ordered
    rw [SearchGoal.cut, hmost] at hprefix
    cases S with
    | nil => cases List.prefix_nil.mp hprefix
    | cons y ys =>
        obtain rfl : x = y := (List.cons_prefix_cons.mp hprefix).1
        refine ⟨fun x' h => ?_, fun _ => hfirst⟩
        rw [hfirst] at h
        cases h
        rfl
  · obtain ⟨u, hu⟩ := hrelease hsession
    have hfirst : (first policy rule begun).1 = .ok none := by
      rw [first_of_next hnext hu, solutions_finalAnswer]
      rfl
    refine ⟨fun x h => ?_, fun hnever => ?_⟩
    · rw [hfirst] at h
      cases h
    · have houtcome := hsession.outcome hpolicy hbegun hlaunched htotals
      -- nothing was found, though nothing has stopped the search: there is nothing to find
      have hunstopped : Unstopped rule begun.control :=
        ⟨hlaunched.endless rule hnever, hlaunched.unstopped⟩
      obtain ⟨status, hsome⟩ := Option.ne_none_iff_exists'.mp
        ((hsession.standing hbegun).status_ne hphase)
      rw [hsome] at houtcome
      refine hfirst.trans (houtcome.firstOf_nil hmost ?_).symm
      rintro rfl
      exact (hunstopped.steady (steady_run hnext)).status hsome

end Launched

variable {scope : List Variable}

/-- **A STOPPED SEARCH REPORTS A PREFIX.** In every history of a store, for every scope,
    policy and random state there is one sequence of solutions: the one which the search
    for all solutions reports if it is never stopped. Every other search can be begun, and
    reports a prefix of it; if nothing stops it, the prefix is as long as its goal allows.
    A careful policy never breaks a rule; if discarded snapshots have been restored, the
    scope has to have values for that, unless the store has failed. -/
theorem stopped_search_reports_prefix {retries : Prop} {live discarded : List Snapshot}
    (hhistory : History retries base live discarded) (hscope : ∀ v ∈ scope, v ∈ base.allVariables)
    (hpolicy : policy.Sensible) (random : ρ) :
    ∃ (S : List Solution) (fault : Option Misuse),
      (policy.Careful → (retries → base.failure = none → ∀ v ∈ scope, ∃ x, x ∈ base.domain v) →
        fault = none) ∧
      ∀ {τ : Type} (rule : TerminationRule τ) (termination : τ) (goal : SearchGoal),
        goal.scope = scope →
          (∃ begun, start goal random termination base = .ok begun ∧
            CutShort policy rule goal termination S fault begun) ∧
          ∃ begun, start goal.justOne random termination base = .ok begun ∧
            FirstFound policy rule termination S fault begun := by
  have hst := hhistory.ordered.stamped
  have htidy := hhistory.tidy
  have howns : ∀ v ∈ scope, base.owns v = true := fun v hv => owns_of_mem (hscope v hv)
  obtain ⟨S, fault, htotals⟩ := exists_totals hst htidy hpolicy.unfixed scope random
  refine ⟨S, fault, fun hcareful hvalues => ?_, fun rule termination goal hgoal => ?_⟩
  · refine htotals.faultless hst htidy hcareful hpolicy.unfixed howns fun hf => ?_
    by_cases hretries : retries
    · exact hvalues hretries hf
    · exact fun v hv => (hhistory.safe hretries).sane.inhabited hf v (hscope v hv)
  · subst hgoal
    constructor
    · obtain ⟨begun, hstart, hbegun, hlaunched⟩ :=
        launched_of_start goal random termination hst howns
      exact ⟨begun, hstart, hlaunched.cutShort hst htidy hpolicy hbegun htotals⟩
    · obtain ⟨begun, hstart, hbegun, hlaunched⟩ :=
        launched_of_start goal.justOne random termination hst howns
      exact ⟨begun, hstart, hlaunched.firstFound hst htidy hpolicy hbegun htotals rfl⟩

/-- Every search over the flag and a variable of the pair, whatever stops it, reports a
    beginning of the same list. -/
theorem stopped_search_in_flaggedPair_reports_prefix :
    ∃ S : List Solution, ∀ {τ : Type} (rule : TerminationRule τ) (termination : τ)
      (goal : SearchGoal), goal.scope = [⟨0, 2⟩, ⟨0, 0⟩] →
        (∃ begun, start goal (Generator.ofSeed 7) termination flaggedPair = .ok begun ∧
          CutShort (.of .mostConstrained .inDomainRandom) rule goal termination S none begun) ∧
        ∃ begun, start goal.justOne (Generator.ofSeed 7) termination flaggedPair = .ok begun ∧
          FirstFound (.of .mostConstrained .inDomainRandom) rule termination S none begun := by
  obtain ⟨discarded, hhistory⟩ := (reached_flaggedPair fun _ => True).history
  have hscope : ∀ v ∈ ([⟨0, 2⟩, ⟨0, 0⟩] : List Variable), v ∈ flaggedPair.allVariables := by
    decide +kernel
  obtain ⟨S, fault, hfault, hall⟩ := stopped_search_reports_prefix hhistory hscope
    (Policy.sensible_of .mostConstrained .inDomainRandom) (Generator.ofSeed 7)
  have hcareful : (Policy.of .mostConstrained .inDomainRandom : Policy Generator).Careful :=
    Policy.careful_of Generator.drawsBelow _ _
  obtain rfl := hfault hcareful False.elim
  exact ⟨S, hall⟩

end Search

end ConstraintSolver
