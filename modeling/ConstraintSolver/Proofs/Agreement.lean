import ConstraintSolver.Proofs.Vigilance

/-! # Agreement — what verdicts promise, and what runs make of them

    Every kind of constraint is there twice: a verdict says what is known
    about it, and a run prunes the domains of its variables.  A verdict which
    is not `unknown` speaks for all assignments that can be drawn from the
    domains, is repeated on all smaller ones, and is there as soon as
    all variables are fixed (`verdict_sound_final_exact`).  This needs nothing of
    the offsets.

    The two implementations agree (`Constraint.Agrees`): a run notices a
    violation, has nothing to do for a constraint that is satisfied, and
    decides like the verdict once all variables are fixed.  Where all
    constraints are stable none is violated, so whoever asks for the undecided
    ones there may skip those that are decided (`no_violation_is_overlooked`).
    The smallest offset is left out, since a run cannot take it back. -/

namespace ConstraintSolver

open Constraint

/-! ## Verdicts -/

namespace Constraint

/-- **VERDICTS ARE SOUND, FINAL AND EXACT**: what is decided is what evaluation says of
    every assignment that can be drawn, smaller domains do not change it, and
    nothing is left undecided when all variables are fixed. -/
theorem verdict_sound_final_exact (c : Constraint) {F : Family}
    (hbool : ∀ b ∈ flags c, ∀ x ∈ F b, x = 0 ∨ x = 1) :
    (∀ holding, entailment F c = .ofBool holding →
      (∀ σ, F.Draws c.scope σ → holds σ c = holding) ∧
        ∀ G ≤ F, G.Inhabited c.scope → entailment G c = .ofBool holding) ∧
      ((∀ v ∈ c.scope, (F v).isFixed = true) → entailment F c ≠ .unknown) := by
  have hscope : ∀ v ∈ occurrences c, v ∈ c.scope := fun v hv => Store.mem_scope.mpr hv
  have hflag : ∀ b ∈ flags c, b ∈ c.scope := fun b hb => hscope b (flags_subset_occurrences c b hb)
  refine ⟨fun holding hverdict => ⟨fun σ hdraw => ?_, fun G hle hinG => ?_⟩, fun hfix => ?_⟩
  · -- the flags are 0 or 1 in whatever is drawn
    have hflags : ∀ b ∈ flags c, σ b = 0 ∨ σ b = 1 := fun b hb =>
      hbool b hb (σ b) (hdraw b (hflag b hb))
    cases holding with
    | true => exact holds_of_satisfied (fun v hv => hdraw v (hscope v hv)) hflags hverdict
    | false => exact not_holds_of_violated (fun v hv => hdraw v (hscope v hv)) hflags hverdict
  · -- a flag keeps one of its values, and so the earlier verdict is settled
    have hopen : FlagsOpen G c :=
      .of_boolean (hinG.mono hflag) fun b hb x hx => hbool b hb x (hle b x hx)
    have hsettles := entailment_settles c hle (hinG.mono hscope) hopen
    rw [← hverdict]
    exact hsettles (hverdict ▸ Entailment.ofBool_ne_unknown)
  · exact Store.decided_of_fixed fun v hv => hfix v (hscope v hv)

/-- If an element of an array which holds a variable twice, or a far sum, or one of nothing, then a
    flag is told that nothing is asked. -/
def emptyPromise : Constraint :=
  .ifThen
    (.or [.element ⟨0, 3⟩ [⟨0, 0⟩, ⟨0, 1⟩, ⟨0, 0⟩] ⟨0, 2⟩ (-1),
      .linear ⟨0, 0⟩ minValue .equal ⟨0, 2⟩, .xor []])
    (.reified (.and []) ⟨0, 4⟩)

/-- Two variables with small values, one with larger ones, an index and a flag. -/
def looseFamily : Family := fun v =>
  [.between 0 1, .between 0 2, .between 7 9, .between (-3) 40, .between 0 1][v.index]?.getD ∅

/-- A promise of nothing is kept by every assignment and in every smaller family, and a family
    that is fixed decides it. -/
theorem verdict_on_emptyPromise :
    (∀ b ∈ flags emptyPromise, ∀ x ∈ looseFamily b, x = 0 ∨ x = 1) ∧
      entailment looseFamily emptyPromise = .satisfied ∧
      (∀ σ, looseFamily.Draws emptyPromise.scope σ → holds σ emptyPromise = true) ∧
      (∀ G ≤ looseFamily, G.Inhabited emptyPromise.scope →
        entailment G emptyPromise = .satisfied) ∧
      entailment (fun _ => .between 1 1) emptyPromise ≠ .unknown := by
  have hbool : ∀ b ∈ flags emptyPromise, ∀ x ∈ looseFamily b, x = 0 ∨ x = 1 := by
    intro b hb x hx
    obtain rfl : b = ⟨0, 4⟩ := List.mem_singleton.mp hb
    have hx' : x ∈ Domain.between 0 1 := hx
    rw [Domain.mem_between] at hx'
    omega
  have hverdict : entailment looseFamily emptyPromise = .satisfied := by decide +kernel
  obtain ⟨hdrawn, hfinal⟩ := (verdict_sound_final_exact emptyPromise hbool).1 true hverdict
  refine ⟨hbool, hverdict, hdrawn, hfinal, ?_⟩
  refine (verdict_sound_final_exact emptyPromise fun b _ x hx => Or.inr ?_).2 fun v _ => rfl
  exact (Domain.mem_singleton.mp hx).2

end Constraint

/-! ## Runs -/

namespace Step

variable {S : List Variable} {p : Step} {D : Domains}

/-- **IDLE STEPS LEAVE EVERYTHING AS IT IS**, also what is listed as changed and what is saved. -/
theorem Built.state_of_idle (h : Built S p) (hidle : Idle p D) : (p D).2 = D := by
  induction h generalizing D with
  | done => rfl
  | fail why => exact absurd hidle (not_idle_fail why D)
  | @narrow v p hv =>
      obtain ⟨⟨x, hx⟩, hkeeps⟩ := idle_narrow_iff.mp hidle
      have hsame : (D.get v).prune p = D.get v := Domain.prune_eq_self_iff.mpr hkeeps
      rw [narrow_snd]
      have hleft : ((D.get v).prune p).isEmpty = false := by
        rw [← Bool.not_eq_true, Domain.isEmpty_iff, hsame]
        exact fun hno => hno x hx
      exact D.prune_eq_self hleft hsame
  | @andThen p q hp hq ihp ihq =>
      obtain ⟨hpD, hqD⟩ := (idle_andThen_iff hp hq).mp hidle
      rw [andThen_snd hpD.1, ihp hpD, ihq hqD]
  | reading _ _ ih => exact ih D hidle

/-- A step that is not idle fails or changes the domain of a variable. -/
theorem Built.noticed (h : Built S p) (hnot : ¬ Idle p D) :
    (p D).1 ≠ .ok () ∨ ∃ v ∈ S, (p D).2.get v ≠ D.get v := by
  by_contra hno
  obtain ⟨hok, hsame⟩ := not_or.mp hno
  refine hnot ⟨not_not.mp hok, funext fun v => ?_⟩
  by_cases hv : v ∈ S
  · by_contra hne
    exact hsame ⟨v, hv, hne⟩
  · exact h.outside D v hv

/-- Nothing but a failure can happen to variables that are fixed. -/
theorem Built.idle_of_fixed (h : Built S p) (hfix : ∀ v ∈ S, (D.get v).isFixed = true)
    (hok : (p D).1 = .ok ()) : Idle p D := by
  refine ⟨hok, funext fun v => ?_⟩
  by_cases hv : v ∈ S
  · obtain ⟨x, hx, hall⟩ := Domain.isFixed_iff.mp (hfix v hv)
    obtain ⟨y, hy⟩ := h.keeps_inhabited hok ⟨x, hx⟩
    -- the value that is left is the only one there was
    have hleft : x ∈ (p D).2.get v := hall y (h.shrinks D v y hy) ▸ hy
    refine le_antisymm (h.shrinks D v) fun w hw => ?_
    rw [hall w hw]
    exact hleft
  · exact h.outside D v hv

end Step

namespace Constraint

open Step

/-- What a run of the constraint has to do with the verdict on it. -/
structure Agrees (c : Constraint) (D : Domains) : Prop where
  /-- A violation does not go unnoticed. -/
  noticed : entailment D.get c = .violated →
    (propagate c D).1 ≠ .ok () ∨ ∃ v ∈ c.scope, (propagate c D).2.get v ≠ D.get v
  /-- There is nothing to do for a constraint that is satisfied. -/
  untouched : entailment D.get c = .satisfied → propagate c D = (.ok (), D)
  /-- A run about fixed variables succeeds if the constraint is satisfied, and only then. -/
  evaluated : (∀ v ∈ c.scope, (D.get v).isFixed = true) →
    ((propagate c D).1 = .ok () ↔ entailment D.get c = .satisfied)

/-- **AGREEMENT**: what is propagated, what is told about it and what holds agree for every tree
    that suits its domains. -/
theorem agrees (c : Constraint) {D : Domains} (hsuit : Suits D.get c) : Agrees c D := by
  have hbuilt := built_propagate c
  refine ⟨fun hvio => ?_, fun hsat => ?_, fun hfix => ⟨fun hok => ?_, fun hsat => ?_⟩⟩
  · have hnoticed := hbuilt.noticed (not_stable_of_violated c hsuit hvio)
    exact hnoticed.imp_right fun ⟨v, hv, hne⟩ => ⟨v, Store.mem_scope.mpr hv, hne⟩
  · have hidle : Idle (propagate c) D := stable_of_satisfied c hsuit hsat
    exact Prod.ext hidle.1 (hbuilt.state_of_idle hidle)
  · have hfix' : ∀ v ∈ occurrences c, (D.get v).isFixed = true :=
      fun v hv => hfix v (Store.mem_scope.mpr hv)
    have hstable : Stable c D := hbuilt.idle_of_fixed hfix' hok
    cases hverdict : entailment D.get c with
    | satisfied => rfl
    | unknown => exact absurd hverdict (Store.decided_of_fixed hfix')
    | violated => exact absurd hstable (not_stable_of_violated c hsuit hverdict)
  · exact (stable_of_satisfied c hsuit hsat).1

end Constraint

/-! ## Fixpoints -/

namespace Store

variable {s t : Store}

/-- Where all constraints are stable, none is violated. -/
theorem Settled.not_violated (h : s.Settled) (hsuit : s.Propagable) {c : Constraint}
    (hc : c ∈ s.constraints.toList) : entailment s.domain c ≠ .violated :=
  fun hvio => not_stable_of_violated c (hsuit c hc) hvio (h c hc)

/-- The undecided variables of such a store are those of the constraints which are not
    known to hold. -/
theorem Settled.mem_undecidedVariables (h : s.Settled) (hsuit : s.Propagable) {v : Variable} :
    v ∈ s.undecidedVariables ↔
      (∃ c ∈ s.constraints.toList, entailment s.domain c ≠ .satisfied ∧ v ∈ c.scope) ∧
        (s.domain v).isFixed = false := by
  rw [Store.mem_undecidedVariables]
  refine and_congr_left fun _ => exists_congr fun c => and_congr_right fun hc => ?_
  rw [mem_scope]
  refine and_congr_left fun _ => ?_
  have hno := h.not_violated hsuit hc
  cases hverdict : entailment s.domain c with
  | unknown => exact iff_of_true rfl fun heq => nomatch heq
  | satisfied => exact iff_of_false (fun heq => nomatch heq) fun hne => hne rfl
  | violated => exact absurd hverdict hno

/-- What can be propagated can be propagated again. -/
theorem Sound.propagable {Q : Criterion} {live : List Snapshot} (h : Sound Q s live)
    (hsuit : s.Propagable) (hok : s.propagate = (.ok (), t)) : t.Propagable := by
  have hev := evolves_propagate s
  rw [hok] at hev
  obtain ⟨hsound, hf, _⟩ := h.propagate_ok hok
  refine hsuit.evolves hev ?_ h.wired
  rw [← hev.allVariables]
  exact (hsound.coherent hf).inhabited

/-- **NO VIOLATION IS OVERLOOKED**: runs agree with verdicts, so no constraint is violated where
    all are stable.  A store in which snapshots are only taken when nothing
    waits is such a place when propagation has ended well. -/
theorem no_violation_is_overlooked (s : Store) :
    (∀ c, Suits s.domain c → Agrees c s.domains) ∧
      (s.Propagable → s.Settled →
        (∀ c ∈ s.constraints.toList, entailment s.domain c ≠ .violated) ∧
          ∀ v, v ∈ s.undecidedVariables ↔
            (∃ c ∈ s.constraints.toList, entailment s.domain c ≠ .satisfied ∧ v ∈ c.scope) ∧
              (s.domain v).isFixed = false) ∧
      (s.Propagable → Observed (fun s => s.agenda.isEmpty = true) s →
        ∀ t, s.propagate = (.ok (), t) → t.Propagable ∧ t.Settled) := by
  refine ⟨fun c hsuit => agrees c hsuit, fun hsuit hsettled => ?_, fun hsuit hseen t hok => ?_⟩
  · exact ⟨fun c hc => hsettled.not_violated hsuit hc,
      fun v => hsettled.mem_undecidedVariables hsuit⟩
  · obtain ⟨live, hsound⟩ := hseen.sound (keeps_of_idle .stable)
    exact ⟨hsound.propagable hsuit hok, hsound.settled hok⟩

/-- A variable is less than itself. -/
def lessThanItself : Constraint := .ordering ⟨0, 0⟩ .less (.variable ⟨0, 0⟩)

/-- The constraint of the pair suits its domains. -/
theorem propagable_decidedPair : decidedPair.Propagable := by
  intro c hc
  obtain rfl : c = Search.flaggedDifference := by
    have hone : decidedPair.constraints.toList = [Search.flaggedDifference] := by decide +kernel
    rw [hone] at hc
    exact List.mem_singleton.mp hc
  refine ⟨fun v hv => Domain.inhabited_of_not_isEmpty (by revert v; decide +kernel), ?_,
    fun k hk => absurd hk List.not_mem_nil⟩
  intro b hb x hx
  obtain rfl : b = ⟨0, 2⟩ := List.mem_singleton.mp hb
  have hset : (decidedPair.domains.get ⟨0, 2⟩).fixedValue? = some 1 := by decide +kernel
  exact Or.inr ((Domain.fixedValue?_eq_some.mp hset).2 x hx)

/-- The pair can be propagated and is settled then, and a violation that is already there is
    noticed. -/
theorem no_violation_is_overlooked_in_decidedPair :
    (Suits decidedPair.domain lessThanItself ∧ decidedPair.Propagable ∧
        Observed (fun s => s.agenda.isEmpty = true) decidedPair) ∧
      entailment decidedPair.domain lessThanItself = .violated ∧
      Agrees lessThanItself decidedPair.domains ∧
      ∃ t, decidedPair.propagate = (.ok (), t) ∧ t.Settled ∧
        (∀ c ∈ t.constraints.toList, entailment t.domain c ≠ .violated) ∧
        ∀ v, v ∈ t.undecidedVariables ↔
          (∃ c ∈ t.constraints.toList, entailment t.domain c ≠ .satisfied ∧ v ∈ c.scope) ∧
            (t.domain v).isFixed = false := by
  have hsuit : Suits decidedPair.domain lessThanItself :=
    .of_flags_eq_nil rfl
      (fun v hv => Domain.inhabited_of_not_isEmpty (by revert v; decide +kernel))
      fun k hk => absurd hk List.not_mem_nil
  have hok : decidedPair.propagate = (.ok (), decidedPair.propagate.2) :=
    Prod.ext (by decide +kernel) rfl
  obtain ⟨hagrees, _, hends⟩ := no_violation_is_overlooked decidedPair
  obtain ⟨hpropagable, hsettled⟩ := hends propagable_decidedPair observed_decidedPair _ hok
  obtain ⟨_, hfixpoint, _⟩ := no_violation_is_overlooked decidedPair.propagate.2
  exact ⟨⟨hsuit, propagable_decidedPair, observed_decidedPair⟩, by decide +kernel,
    hagrees _ hsuit, _, hok, hsettled, hfixpoint hpropagable hsettled⟩

end Store

end ConstraintSolver
