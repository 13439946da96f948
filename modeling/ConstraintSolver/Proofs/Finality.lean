import ConstraintSolver.Proofs.Checking
import ConstraintSolver.Proofs.Safety

/-! # Finality — every search comes to its end, and stays there

    A call of a search takes steps until one of them finds a solution, until
    one breaks a rule, or until the search is over (`Goes`, `Ends`).  Each
    step leaves fewer steps, so no call goes on for ever, and what it answers
    is what its steps come to: neither the bound that the model puts on them
    nor the depth at which it cuts off the completion check is ever met
    (`Halts`).  A solution leaves fewer steps, too.  So a search that is asked
    again and again is over after finitely many solutions, and from then on
    nothing changes any more (`Concluded`). -/

namespace ConstraintSolver

open Constraint Store Relation

namespace Search

variable {ρ τ : Type} {policy : Policy ρ} {rule : TerminationRule τ} {base : Store}
  {goal : SearchGoal} {begun s t u : Search ρ τ} {reported : List Solution}

/-! ## The steps of a call -/

/-- A step of a call after which the call goes on. -/
def Goes (policy : Policy ρ) (rule : TerminationRule τ) (s t : Search ρ τ) : Prop :=
  s.control.phase ≠ .exhausted ∧ s.step policy rule = (.ok none, t)

/-- How a call ends. -/
inductive Ends (policy : Policy ρ) (rule : TerminationRule τ) (s : Search ρ τ) :
    Except Misuse Answer × Search ρ τ → Prop
  /-- The search is over. -/
  | ended (phase : s.control.phase = .exhausted) : Ends policy rule s (.ok s.control.finalAnswer, s)
  /-- A solution is found. -/
  | found {x : Solution} {t : Search ρ τ} (going : s.control.phase ≠ .exhausted)
      (step : s.step policy rule = (.ok (some x), t)) : Ends policy rule s (.ok (.solution x), t)
  /-- A rule is broken. -/
  | broke {e : Misuse} {t : Search ρ τ} (going : s.control.phase ≠ .exhausted)
      (step : s.step policy rule = (.error e, t)) : Ends policy rule s (.error e, t)

/-- A search can take a step, or its call ends. -/
theorem goes_or_ends (policy : Policy ρ) (rule : TerminationRule τ) (s : Search ρ τ) :
    (∃ t, Goes policy rule s t) ∨ ∃ r, Ends policy rule s r := by
  by_cases hphase : s.control.phase = .exhausted
  · exact Or.inr ⟨_, .ended hphase⟩
  · cases hstep : s.step policy rule with
    | mk result t =>
        cases result with
        | error e => exact Or.inr ⟨_, .broke hphase hstep⟩
        | ok found =>
            cases found with
            | none => exact Or.inl ⟨t, hphase, hstep⟩
            | some x => exact Or.inr ⟨_, .found hphase hstep⟩

/-- A step uses up one of those allowed. -/
theorem Goes.run_eq (h : Goes policy rule s t) (fuel : Nat) :
    Search.run policy rule (fuel + 1) s = Search.run policy rule fuel t := by
  rw [Search.run, if_neg h.1, h.2]

/-- A call that ends does so however many steps are allowed. -/
theorem Ends.run_eq {r : Except Misuse Answer × Search ρ τ} (h : Ends policy rule s r)
    (fuel : Nat) : Search.run policy rule (fuel + 1) s = r := by
  cases h with
  | ended phase => exact run_exhausted phase _
  | found going step => rw [Search.run, if_neg going, step]
  | broke going step => rw [Search.run, if_neg going, step]

/-- **A STEP** leaves fewer steps. -/
theorem Goes.timely (hpolicy : policy.ChoosesUnfixed) (h : Goes policy rule s t)
    (hs : Timely base s) : Timely base t ∧ steps base t < steps base s := by
  obtain ⟨hgoing, hstep⟩ := h
  obtain ⟨hwaning, hlt⟩ := hs.waning.step hpolicy hgoing hstep
  refine ⟨⟨hwaning, ?_⟩, hlt⟩
  rw [(steady_step hstep).patience]
  exact Nat.le_trans (Nat.le_of_lt hlt) hs.patient

theorem timely_of_goes (hpolicy : policy.ChoosesUnfixed)
    (h : ReflTransGen (Goes policy rule) s t) (hs : Timely base s) : Timely base t := by
  induction h with
  | refl => exact hs
  | tail _ hgoes ih => exact (hgoes.timely hpolicy ih).1

/-- Steps that follow one another are not more than there are left. -/
theorem Timely.bounded (hpolicy : policy.ChoosesUnfixed) (hs : Timely base s)
    {states : Nat → Search ρ τ} {count : Nat} (hfirst : states 0 = s)
    (hgoes : ∀ i < count, Goes policy rule (states i) (states (i + 1))) :
    count ≤ steps base s := by
  suffices h : Timely base (states count) ∧ count + steps base (states count) ≤ steps base s from
    Nat.le_trans (Nat.le_add_right _ _) h.2
  induction count with
  | zero =>
      rw [hfirst]
      exact ⟨hs, by omega⟩
  | succ count ih =>
      obtain ⟨htimely, hle⟩ := ih fun i hi => hgoes i (Nat.lt_succ_of_lt hi)
      obtain ⟨htimely', hlt⟩ := (hgoes count (Nat.lt_succ_self _)).timely hpolicy htimely
      exact ⟨htimely', by omega⟩

/-- A run with enough fuel is what the steps come to. -/
theorem Timely.exists_end (hpolicy : policy.ChoosesUnfixed) {fuel : Nat} (hs : Timely base s)
    (hfuel : steps base s ≤ fuel) :
    ∃ last, ReflTransGen (Goes policy rule) s last ∧
      Ends policy rule last (Search.run policy rule fuel s) := by
  induction fuel generalizing s with
  | zero => exact ⟨s, .refl, .ended (phase_of_stepsLeft (Nat.le_zero.mp hfuel))⟩
  | succ fuel ih =>
      rcases goes_or_ends policy rule s with ⟨t, hgoes⟩ | ⟨r, hends⟩
      · obtain ⟨htimely, hlt⟩ := hgoes.timely hpolicy hs
        obtain ⟨last, hreach, hend⟩ := ih htimely (by omega)
        exact ⟨last, .head hgoes hreach, hgoes.run_eq fuel ▸ hend⟩
      · exact ⟨s, .refl, hends.run_eq fuel ▸ hends⟩

/-- **A CALL COMES TO AN END.** -/
structure Halts (policy : Policy ρ) (rule : TerminationRule τ) (base : Store)
    (s : Search ρ τ) : Prop where
  /-- The steps that follow one another are bounded. -/
  bounded : ∀ (states : Nat → Search ρ τ) (count : Nat), states 0 = s →
    (∀ i < count, Goes policy rule (states i) (states (i + 1))) → count ≤ steps base s
  /-- The outcome of the call is what some of them come to. -/
  ends : ∃ last, ReflTransGen (Goes policy rule) s last ∧
    Ends policy rule last (s.next policy rule)
  /-- The completion check, too, comes to its end: cutting it off any deeper makes no
      difference. -/
  checked : ∀ t, ReflTransGen (Goes policy rule) s t → t.control.phase = .selecting →
    ∀ depth, t.store.variableCount < depth → t.store.completes depth = t.store.hasCompletion

/-- A search with enough steps left halts. -/
theorem Timely.halts (rule : TerminationRule τ) (hpolicy : policy.ChoosesUnfixed)
    (hs : Timely base s) : Halts policy rule base s := by
  refine ⟨fun states count hfirst hgoes => hs.bounded hpolicy hfirst hgoes,
    hs.exists_end hpolicy hs.patient, fun t hreach hphase depth hdepth => ?_⟩
  obtain ⟨amid, _⟩ := (timely_of_goes hpolicy hreach hs).waning.at_selecting hphase
  have hle := t.store.unfixedCount_le
  exact completes_eq amid.stamped (by omega) (by omega)

/-! ## Solutions -/

/-- Every solution has cost a step. -/
theorem Session.bounded (hpolicy : policy.ChoosesUnfixed) (hbegun : Timely base begun)
    (h : Session policy rule begun reported s) :
    reported.length + steps base s ≤ steps base begun := by
  induction h with
  | begun => exact Nat.le_of_eq (Nat.zero_add _)
  | @next reported s t answer hsession hnext ih =>
      obtain ⟨_, ⟨x, rfl, hlt⟩ | ⟨rfl, hphase⟩⟩ :=
        (hsession.timely hpolicy hbegun).next hpolicy hnext
      · rw [List.length_append]
        change reported.length + 1 + steps base t ≤ _
        omega
      · rw [solutions_finalAnswer, List.append_nil, steps_exhausted hphase]
        omega
  | changed termination _ ih => exact ih
  | summarized _ hsummary ih =>
      rcases phase_of_summarize hsummary with rfl | hphase
      · exact ih
      · rw [steps_exhausted hphase]
        omega

section Cared

variable (hcared : Cared policy base goal.scope) (hbegun : Begun base goal begun)
  (hsecure : Secure base goal begun) (htimely : Timely base begun)
include hcared hbegun hsecure htimely

/-- **A CALL ANSWERS** with a solution, or the search is over. -/
theorem Session.answers (h : Session policy rule begun reported s) :
    ∃ answer t, s.next policy rule = (.ok answer, t) ∧
      ((∃ x, answer = .solution x ∧ steps base t < steps base s) ∨
        answer = t.control.finalAnswer ∧ t.control.status ≠ none) := by
  obtain ⟨opened, hcourse⟩ := h.course
  obtain ⟨answer, t, hnext, _⟩ := (hcourse.secure hcared hsecure).run rule hcared
    s.control.patience
  refine ⟨answer, t, hnext, ?_⟩
  obtain ⟨_, hcases⟩ := (h.timely hcared.unfixed htimely).next hcared.unfixed hnext
  exact hcases.imp id fun ⟨hanswer, hphase⟩ =>
    ⟨hanswer, ((h.next hnext).standing hbegun).status_ne hphase⟩

/-- **ASKED AGAIN AND AGAIN**, the search is over at some point. -/
theorem Session.concludes (h : Session policy rule begun reported s) :
    ∃ xs t, Reports policy rule s xs (.ok t.control.finalAnswer) t ∧
      Session policy rule begun (reported ++ xs) t ∧ t.control.status ≠ none := by
  induction hsteps : steps base s using Nat.strongRecOn generalizing s reported with
  | ind left ih =>
      obtain ⟨answer, t, hnext, ⟨x, rfl, hlt⟩ | ⟨rfl, hstatus⟩⟩ :=
        h.answers hcared hbegun hsecure htimely
      · obtain ⟨xs, u, hreports, hsession, hstatus⟩ := ih _ (hsteps ▸ hlt) (h.next hnext) rfl
        refine ⟨x :: xs, u, .found hnext hreports, ?_, hstatus⟩
        rw [List.append_assoc] at hsession
        exact hsession
      · have hsession := h.next hnext
        rw [solutions_finalAnswer] at hsession
        exact ⟨[], t, .ends hnext fun x hx => finalAnswer_ne _ x (Except.ok.inj hx), hsession,
          hstatus⟩

end Cared

/-! ## The end -/

/-- **A SEARCH THAT IS OVER**: however it is used, it reports nothing more, changes neither
    the store nor its statistics, and gives the same answer each time. -/
structure Concluded (policy : Policy ρ) (rule : TerminationRule τ) (s : Search ρ τ) : Prop where
  answer : ∀ x, s.control.finalAnswer ≠ .solution x
  kept : ∀ more u, Session policy rule s more u →
    more = [] ∧ u.store = s.store ∧ u.control.statistics = s.control.statistics ∧
      u.next policy rule = (.ok s.control.finalAnswer, u)

/-- Summing up a search that is over changes nothing. -/
theorem summarize_of_status {status : SearchStatus} (h : s.control.status = some status) :
    s.summarize = (.ok ⟨status, s.control.statistics⟩, s) := by
  rw [Search.summarize, h]

/-- A session with a search that is over finds nothing, and changes nothing. -/
theorem Session.of_exhausted {more : List Solution} (hphase : s.control.phase = .exhausted)
    (hstatus : s.control.status ≠ none) (h : Session policy rule s more u) :
    more = [] ∧ u.store = s.store ∧ u.control.statistics = s.control.statistics ∧
      u.control.status = s.control.status ∧ u.control.phase = .exhausted := by
  induction h with
  | begun => exact ⟨rfl, rfl, rfl, rfl, hphase⟩
  | next _ hnext ih =>
      obtain ⟨rfl, hstore, hstatistics, hsame, hover⟩ := ih
      rw [Search.next, run_exhausted hover] at hnext
      cases hnext
      exact ⟨solutions_finalAnswer _, hstore, hstatistics, hsame, hover⟩
  | changed termination _ ih => exact ih
  | summarized _ hsummary ih =>
      obtain ⟨status, hsome⟩ := Option.ne_none_iff_exists'.mp hstatus
      rw [summarize_of_status (ih.2.2.2.1.trans hsome)] at hsummary
      cases hsummary
      exact ih

/-- What is over stays over. -/
theorem Standing.concluded (policy : Policy ρ) (rule : TerminationRule τ) (h : Standing base s)
    (hstatus : s.control.status ≠ none) : Concluded policy rule s := by
  have hphase : s.control.phase = .exhausted := by
    by_contra hgoing
    exact hstatus (h.status_none hgoing)
  refine ⟨finalAnswer_ne s.control, fun more u hmore => ?_⟩
  obtain ⟨hnil, hstore, hstatistics, hsame, hover⟩ := hmore.of_exhausted hphase hstatus
  have hanswer : u.control.finalAnswer = s.control.finalAnswer := by
    rw [SearchControl.finalAnswer, SearchControl.finalAnswer, hsame, hstatistics]
  exact ⟨hnil, hstore, hstatistics, hanswer ▸ run_exhausted hover _⟩

/-- **EVERY SEARCH COMES TO ITS END**, in every history of a store, over any variables of it,
    with a built-in choice of variables, any choice of candidates and any termination
    condition. However the search has been used, the next call comes to an end, the solutions
    are bounded in number, and once the search is over, nothing changes any more.

    If no discarded snapshot has been restored, or the variables of the scope have values
    unless the store has failed, then every call returns an answer, and after finitely many
    solutions the search is over. -/
theorem search_comes_to_its_end {retries : Prop} {live discarded : List Snapshot}
    (hhistory : History retries base live discarded)
    (hscope : ∀ v ∈ goal.scope, v ∈ base.allVariables) {choice : VariableChoice}
    (hvariable : policy.chooseVariable = choice.choose) (hvalue : policy.ChoosesCandidates)
    (rule : TerminationRule τ) (random : ρ) (termination : τ) :
    ∃ begun, start goal random termination base = .ok begun ∧
      ∀ reported s, Session policy rule begun reported s →
        Halts policy rule base s ∧
          reported.length + steps base s ≤ steps base begun ∧
          (s.control.status ≠ none → Concluded policy rule s) ∧
          ((retries → base.failure = none → ∀ v ∈ goal.scope, ∃ x, x ∈ base.domain v) →
            (∃ answer t, s.next policy rule = (.ok answer, t) ∧
              ((∃ x, answer = .solution x) ∨
                answer = t.control.finalAnswer ∧ t.control.status ≠ none)) ∧
            ∃ xs t, Reports policy rule s xs (.ok t.control.finalAnswer) t ∧
              t.control.status ≠ none ∧ Concluded policy rule t) := by
  have howns : ∀ v ∈ goal.scope, base.owns v = true := fun v hv => owns_of_mem (hscope v hv)
  have hunfixed := Policy.choosesUnfixed_of_choose hvariable
  have hst := hhistory.ordered.stamped
  obtain ⟨begun, hstart, hbegun, hlaunched⟩ := launched_of_start goal random termination hst howns
  have htimely := hlaunched.timely hst hhistory.tidy
  have hsecure := secure_of_launched hbegun hlaunched hst hhistory.tidy
  refine ⟨begun, hstart, fun reported s hsession => ⟨?_, hsession.bounded hunfixed htimely,
    (hsession.standing hbegun).concluded policy rule, fun hvalues => ?_⟩⟩
  · exact (hsession.timely hunfixed htimely).halts rule hunfixed
  · have hinhabited : base.failure = none → ∀ v ∈ goal.scope, ∃ x, x ∈ base.domain v := by
      -- without discarded snapshots the scope has values anyway
      by_cases hretries : retries
      · exact hvalues hretries
      · exact fun hf v hv => (hhistory.safe hretries).sane.inhabited hf v (hscope v hv)
    have hcared : Cared policy base goal.scope :=
      ⟨Policy.careful_of_choose hvariable hvalue, hunfixed, howns, hinhabited⟩
    obtain ⟨answer, t, hnext, hcases⟩ := hsession.answers hcared hbegun hsecure htimely
    obtain ⟨xs, u, hreports, hlater, hstatus⟩ := hsession.concludes hcared hbegun hsecure htimely
    exact ⟨⟨answer, t, hnext, hcases.imp (fun ⟨x, hx, _⟩ => ⟨x, hx⟩) id⟩, xs, u, hreports,
      hstatus, (hlater.standing hbegun).concluded policy rule hstatus⟩

/-- A search with random values over two of three variables comes to its end. -/
theorem search_in_flaggedPair_comes_to_its_end :
    ∃ begun : Search Generator Watch,
      start ⟨[⟨0, 2⟩, ⟨0, 0⟩], true, none⟩ (.ofSeed 7) (.new .indefinite) flaggedPair =
          .ok begun ∧
        Halts (.of .largestDomain .inDomainRandom) Watch.rule flaggedPair begun ∧
          ∃ xs t, Reports (.of .largestDomain .inDomainRandom) Watch.rule begun xs
              (.ok t.control.finalAnswer) t ∧
            Concluded (.of .largestDomain .inDomainRandom) Watch.rule t := by
  obtain ⟨discarded, hhistory⟩ := (reached_flaggedPair fun _ => True).history
  have hscope : ∀ v ∈ (⟨[⟨0, 2⟩, ⟨0, 0⟩], true, none⟩ : SearchGoal).scope,
      v ∈ flaggedPair.allVariables := by
    decide +kernel
  have hvalue : (.of .largestDomain .inDomainRandom : Policy Generator).ChoosesCandidates :=
    Policy.choosesCandidates_of Generator.drawsBelow _ _
  obtain ⟨begun, hstart, hends⟩ := search_comes_to_its_end hhistory hscope
    (rfl : _ = VariableChoice.choose .largestDomain) hvalue Watch.rule (.ofSeed 7)
    (.new .indefinite)
  obtain ⟨hhalts, _, _, hanswers⟩ := hends [] begun .begun
  obtain ⟨_, xs, t, hreports, _, hconcluded⟩ := hanswers False.elim
  exact ⟨begun, hstart, hhalts, xs, t, hreports, hconcluded⟩

end Search

end ConstraintSolver
