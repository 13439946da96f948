import ConstraintSolver.Proofs.Alike

/-! # Sums — what `x + offset = z` leaves once it is run to its end

    A constraint at hand is run until it changes nothing (`exhaust`); what
    comes after that in the work of a store is the business of other
    constraints (`work_exhaust`).  Running `x + offset = z` takes the domain of
    one variable, shifts it, and intersects the other one with it, in both
    directions.  Shifts saturate, so values pile up at the limits of the 32-bit
    range; but a value survives the way there and back only if it is paired
    with one of the other domain (`Paired`), and these are what is left in
    the end, for every offset (`exhaust_sum`).

    Values which are paired differ by the offset, unless the offset is the
    smallest integer.  That one has no negative; the way back is one short, so
    none of the values which it should pair are paired, and the one pair there
    is does not belong together (`paired_smallest_iff`).  So the run ends
    exactly where it should for all other offsets, and for this one only if
    there is nothing to be found (`sum_exact_iff`). -/

namespace ConstraintSolver

open Constraint Step

namespace Store

/-! ## Running one constraint to its end -/

/-- Runs a constraint until it fails or changes nothing. -/
def exhaust (s : Store) (id : ConstraintId) (c : Constraint) :
    Except Inconsistency Unit × Store :=
  match _h : s.runOnce id c with
  | (.error why, t) => (.error why, t)
  | (.ok (), t) =>
      if t.domains.changes = [] then (.ok (), t) else (t.wakeChanged (some id)).exhaust id c
termination_by s.domains.totalSize
decreasing_by
  rename_i hne
  exact (totalSize_runOnce _h).2.resolve_left hne

variable {s t : Store} {id : ConstraintId} {c : Constraint}

/-- Induction along the runs of a constraint. -/
theorem exhaust_induction (id : ConstraintId) (c : Constraint)
    {P : Store → Except Inconsistency Unit × Store → Prop}
    (failed : ∀ s why t, s.runOnce id c = (.error why, t) → P s (.error why, t))
    (quiet : ∀ s t, s.runOnce id c = (.ok (), t) → t.domains.changes = [] → P s (.ok (), t))
    (rerun : ∀ s t r, s.runOnce id c = (.ok (), t) → t.domains.changes ≠ [] →
      P (t.wakeChanged (some id)) r → P s r)
    (s : Store) : P s (s.exhaust id c) := by
  fun_induction exhaust s id c with
  | case1 s why t h => exact failed s why t h
  | case2 s t h hq => exact quiet s t h hq
  | case3 s t h hq ih => exact rerun s t _ h hq ih

/-- **THE WORK ON ONE CONSTRAINT** is to run it to its end, and then to go on with those
    that wait. -/
theorem work_exhaust (hc : s.constraint? id = some c) :
    s.work (some id) =
      match s.exhaust id c with
      | (.ok (), t) => t.work none
      | (.error why, t) => (.error why, t) := by
  induction s using exhaust_induction id c with
  | failed s why t h => exact work_failed hc h
  | quiet s t h hq => rw [work_ran hc h, if_pos hq]
  | rerun s t r h hq ih =>
      have hev := evolves_runOnce s id c
      rw [h] at hev
      rw [work_ran hc h, if_neg hq]
      refine ih ?_
      show t.constraints[id.index]? = some c
      rw [hev.constraints]
      exact hc

/-- Running one constraint to its fixpoint only takes values away, marks and notes. -/
theorem evolves_exhaust (s : Store) (id : ConstraintId) (c : Constraint) :
    Evolves s (s.exhaust id c).2 := by
  induction s using exhaust_induction id c with
  | failed s why t h | quiet s t h _ =>
      have hev := evolves_runOnce s id c
      rw [h] at hev
      exact hev
  | rerun s t r h _ ih =>
      have hev := evolves_runOnce s id c
      rw [h] at hev
      exact (hev.trans (evolves_wakeChanged t (some id))).trans ih

/-- **AT ITS END** a constraint which has not failed is stable, and no variable has run out of
    values. -/
theorem stable_exhaust (s : Store) (hok : (s.exhaust id c).1 = .ok ()) :
    Stable c (s.exhaust id c).2.domains ∧
      ∀ v, (∃ x, x ∈ s.domain v) → ∃ x, x ∈ (s.exhaust id c).2.domain v := by
  induction s using exhaust_induction id c with
  | failed s why t h => cases hok
  | quiet s t h hq => exact ⟨stable_of_quiet h hq, fun v hv => runOnce_keeps_inhabited h hv⟩
  | rerun s t r h hq ih =>
      obtain ⟨hstable, hin⟩ := ih hok
      exact ⟨hstable, fun v hv => hin v (runOnce_keeps_inhabited h hv)⟩

/-- A family that is spared by the constraint on all larger domains is left alone. -/
theorem exhaust_spares (id : ConstraintId) {G : Family} (s : Store)
    (h : ∀ D : Domains, G ≤ D.get → Spares c.propagate D G) (hle : G ≤ s.domain) :
    (s.exhaust id c).1 = .ok () ∧ G ≤ (s.exhaust id c).2.domain := by
  -- whichever larger domains a run starts from, it spares the family
  have hrun : ∀ s : Store, G ≤ s.domain →
      (s.runOnce id c).1 = .ok () ∧ G ≤ (s.runOnce id c).2.domain := by
    intro s hle
    exact h s.domains.settled hle
  induction s using exhaust_induction id c with
  | failed s why t hfail =>
      have hok := (hrun s hle).1
      rw [hfail] at hok
      cases hok
  | quiet s t hran _ =>
      have hspared := (hrun s hle).2
      rw [hran] at hspared
      exact ⟨rfl, hspared⟩
  | rerun s t r hran _ ih =>
      have hspared := (hrun s hle).2
      rw [hran] at hspared
      exact ih hspared

end Store

/-! ## Pairs -/

/-- The two values lead to each other, there by the offset and back by its negative, when sums
    and negatives saturate. -/
def Paired (offset v w : Int) : Prop :=
  saturate (v + offset) = w ∧ saturate (w + saturate (-offset)) = v

section Paired

variable {offset v w : Int}

/-- Off the smallest offset, the values that the source pairs are those whose sum is exact. -/
theorem paired_iff (hoff : InRange offset) (hne : offset ≠ minValue) (hv : InRange v)
    (hw : InRange w) : Paired offset v w ↔ v + offset = w := by
  simp only [Paired, InRange, saturate, minValue, maxValue] at *
  omega

/-- The smallest offset pairs two values only, and they do not belong together. -/
theorem paired_smallest_iff (hv : InRange v) (hw : InRange w) :
    Paired minValue v w ↔ v = -1 ∧ w = minValue := by
  simp only [Paired, InRange, saturate, minValue, maxValue] at *
  omega

end Paired

namespace Constraint

section Balance

variable {F : Family} {x z : Variable} {offset : Int}

/-- A balance of all offsets but the smallest leaves no value without its sum. -/
theorem paired_of_linearBalance (hxz : x ≠ z) (hoff : InRange offset) (hne : offset ≠ minValue)
    (h : LinearBalance F x offset z .equal) :
    (∀ v ∈ F x, ∃ w ∈ F z, Paired offset v w) ∧ ∀ w ∈ F z, ∃ v ∈ F x, Paired offset v w := by
  rw [LinearBalance, if_neg hxz] at h
  obtain ⟨hzx, hxz⟩ := h
  have hsum : ∀ v ∈ F x, ∃ w ∈ F z, Paired offset v w := by
    intro v hv
    obtain ⟨w, hw, hback⟩ := Domain.mem_shift.mp (hxz v hv)
    obtain ⟨u, hu, hsum⟩ := Domain.mem_shift.mp (hzx w hw)
    have hur := Domain.inRange_of_mem hu
    refine ⟨w, hw, ?_, hback⟩
    -- the sum has either not saturated, or the limit is where the value belongs
    simp only [InRange, saturate, minValue, maxValue] at *
    omega
  refine ⟨hsum, fun w hw => ?_⟩
  obtain ⟨v, hv, rfl⟩ := Domain.mem_shift.mp (hzx w hw)
  obtain ⟨w, _, hpair⟩ := hsum v hv
  exact ⟨v, hv, hpair.1 ▸ hpair⟩

/-- A balance of the smallest offset leaves one value on each side. -/
theorem paired_of_linearBalance_smallest (hxz : x ≠ z) (hin : F.Inhabited [x, z])
    (h : LinearBalance F x minValue z .equal) :
    (∀ v ∈ F x, ∃ w ∈ F z, Paired minValue v w) ∧ ∀ w ∈ F z, ∃ v ∈ F x, Paired minValue v w := by
  rw [LinearBalance, if_neg hxz] at h
  obtain ⟨hzx, hxz⟩ := h
  have hx := hin x List.mem_cons_self
  -- the largest value of the first variable can only have come back from a saturated sum
  have htop : (F x).upperBound = -1 := by
    obtain ⟨w, hw, hback⟩ := Domain.mem_shift.mp (hxz _ (Domain.upperBound_mem hx))
    obtain ⟨v, hv, hsum⟩ := Domain.mem_shift.mp (hzx w hw)
    have hle := Domain.le_upperBound hv
    have hvr := Domain.inRange_of_mem hv
    simp only [InRange, saturate, minValue, maxValue] at *
    omega
  have hz : ∀ w ∈ F z, w = minValue := by
    intro w hw
    obtain ⟨v, hv, hsum⟩ := Domain.mem_shift.mp (hzx w hw)
    have hle := Domain.le_upperBound hv
    simp only [saturate, minValue, maxValue] at *
    omega
  have hone : ∀ v ∈ F x, v = -1 := by
    intro v hv
    obtain ⟨w, hw, hback⟩ := Domain.mem_shift.mp (hxz v hv)
    rw [hz w hw] at hback
    simp only [saturate, minValue, maxValue] at *
    omega
  have hpair : Paired minValue (-1) minValue := (paired_smallest_iff (by decide) (by decide)).mpr
    ⟨rfl, rfl⟩
  obtain ⟨v, hv⟩ := hx
  obtain ⟨w, hw, _⟩ := Domain.mem_shift.mp (hxz v hv)
  refine ⟨fun u hu => ⟨w, hw, ?_⟩, fun u hu => ⟨v, hv, ?_⟩⟩
  · rw [hone u hu, hz w hw]
    exact hpair
  · rw [hone v hv, hz u hu]
    exact hpair

end Balance

/-- Two values which are paired are spared on all larger domains. -/
theorem spares_paired {D : Domains} {G : Family} {x z : Variable} {offset v w : Int} (hxz : x ≠ z)
    (hle : G ≤ D.get) (hx : (G x).fixedValue? = some v) (hz : (G z).fixedValue? = some w)
    (hpair : Paired offset v w) : Spares (propagate (.linear x offset .equal z)) D G := by
  rw [Domain.fixedValue?_eq_some] at hx hz
  have hin : G.Inhabited [x, z] := by
    intro y hy
    rcases List.mem_cons.mp hy with rfl | hy
    · exact ⟨v, hx.1⟩
    · obtain rfl := List.mem_singleton.mp hy
      exact ⟨w, hz.1⟩
  rw [propagate]
  refine spares_linear hle hin ?_
  rw [LinearBalance, if_neg hxz]
  refine ⟨fun b hb => Domain.mem_shift.mpr ⟨v, hx.1, ?_⟩,
    fun a ha => Domain.mem_shift.mpr ⟨w, hz.1, ?_⟩⟩
  · rw [hz.2 b hb]
    exact hpair.1
  · rw [hx.2 a ha]
    exact hpair.2

end Constraint

namespace Store

/-! ## Running a sum to its end -/

/-- What a run from the store ends with when only pairs of values of the two variables count: it
    fails if there is no pair, and otherwise leaves the values which belong to one. -/
structure Leaves (s : Store) (result : Except Inconsistency Unit × Store) (x z : Variable)
    (Pair : Int → Int → Prop) : Prop where
  fails_iff : result.1 ≠ .ok () ↔ ¬ ∃ v ∈ s.domain x, ∃ w ∈ s.domain z, Pair v w
  left : result.1 = .ok () →
    ∀ v, v ∈ result.2.domain x ↔ v ∈ s.domain x ∧ ∃ w ∈ s.domain z, Pair v w
  right : result.1 = .ok () →
    ∀ w, w ∈ result.2.domain z ↔ w ∈ s.domain z ∧ ∃ v ∈ s.domain x, Pair v w

section Sum

variable {s : Store} {id : ConstraintId} {x z : Variable} {offset : Int}

/-- A single pair is enough for the run to go well. -/
theorem Leaves.ok_of_pair {result : Except Inconsistency Unit × Store} {P : Int → Int → Prop}
    (h : Leaves s result x z P) {v w : Int} (hv : v ∈ s.domain x) (hw : w ∈ s.domain z)
    (hvw : P v w) : result.1 = .ok () := by
  by_contra hfails
  exact h.fails_iff.mp hfails ⟨v, hv, w, hw, hvw⟩

/-- What is left depends only on the pairs of values that are still there. -/
theorem Leaves.congr {result : Except Inconsistency Unit × Store} {P Q : Int → Int → Prop}
    (h : Leaves s result x z P) (hPQ : ∀ v ∈ s.domain x, ∀ w ∈ s.domain z, P v w ↔ Q v w) :
    Leaves s result x z Q := by
  have hleft : ∀ v ∈ s.domain x, (∃ w ∈ s.domain z, P v w) ↔ ∃ w ∈ s.domain z, Q v w := by
    intro v hv
    exact exists_congr fun w => and_congr_right fun hw => hPQ v hv w hw
  have hright : ∀ w ∈ s.domain z, (∃ v ∈ s.domain x, P v w) ↔ ∃ v ∈ s.domain x, Q v w := by
    intro w hw
    exact exists_congr fun v => and_congr_right fun hv => hPQ v hv w hw
  refine ⟨?_, fun hok v => ?_, fun hok w => ?_⟩
  · rw [h.fails_iff]
    exact not_congr (exists_congr fun v => and_congr_right (hleft v))
  · rw [h.left hok]
    exact and_congr_right (hleft v)
  · rw [h.right hok]
    exact and_congr_right (hright w)

/-- Values which are paired survive. -/
theorem exhaust_keeps_paired (hxz : x ≠ z) {v w : Int} (hv : v ∈ s.domain x) (hw : w ∈ s.domain z)
    (hpair : Paired offset v w) :
    (s.exhaust id (.linear x offset .equal z)).1 = .ok () ∧
      v ∈ (s.exhaust id (.linear x offset .equal z)).2.domain x ∧
        w ∈ (s.exhaust id (.linear x offset .equal z)).2.domain z := by
  -- what an assignment with these two values leaves of the domains
  let σ : Assignment := fun y => if y = x then v else w
  have hσx : σ x = v := if_pos rfl
  have hσz : σ z = w := if_neg hxz.symm
  have hfx : (Family.pointed s.domain σ x).fixedValue? = some v :=
    hσx ▸ Family.fixedValue?_pointed (hσx.symm ▸ hv)
  have hfz : (Family.pointed s.domain σ z).fixedValue? = some w :=
    hσz ▸ Family.fixedValue?_pointed (hσz.symm ▸ hw)
  obtain ⟨hok, hle⟩ := exhaust_spares id s
    (fun D hle => spares_paired hxz hle hfx hfz hpair) (Family.pointed_le s.domain σ)
  exact ⟨hok, hle x v (Domain.fixedValue?_eq_some.mp hfx).1,
    hle z w (Domain.fixedValue?_eq_some.mp hfz).1⟩

/-- At the end of a run that goes well, all values are paired. -/
theorem exhaust_balanced (hxz : x ≠ z) (hoff : InRange offset)
    (hin : Family.Inhabited s.domain [x, z])
    (hok : (s.exhaust id (.linear x offset .equal z)).1 = .ok ()) :
    Family.Inhabited (s.exhaust id (.linear x offset .equal z)).2.domain [x, z] ∧
    (∀ v ∈ (s.exhaust id (.linear x offset .equal z)).2.domain x,
      ∃ w ∈ (s.exhaust id (.linear x offset .equal z)).2.domain z, Paired offset v w) ∧
      ∀ w ∈ (s.exhaust id (.linear x offset .equal z)).2.domain z,
        ∃ v ∈ (s.exhaust id (.linear x offset .equal z)).2.domain x, Paired offset v w := by
  obtain ⟨hstable, hkeeps⟩ := stable_exhaust s hok
  have hin' : Family.Inhabited (s.exhaust id (.linear x offset .equal z)).2.domain [x, z] :=
    fun y hy => hkeeps y (hin y hy)
  rw [Stable, Constraint.propagate, idle_linear_iff hin'] at hstable
  refine ⟨hin', ?_⟩
  by_cases hsmall : offset = minValue
  · subst hsmall
    exact paired_of_linearBalance_smallest hxz hin' hstable
  · exact paired_of_linearBalance hxz hoff hsmall hstable

/-- **A SUM LEAVES WHAT IS PAIRED**, whatever the offset. -/
theorem exhaust_sum (id : ConstraintId) (hxz : x ≠ z) (hoff : InRange offset)
    (hin : Family.Inhabited s.domain [x, z]) :
    Leaves s (s.exhaust id (.linear x offset .equal z)) x z (Paired offset) := by
  have hev := evolves_exhaust s id (.linear x offset .equal z)
  refine ⟨?_, fun hok v => ?_, fun hok w => ?_⟩
  · rw [not_iff_not]
    constructor
    · intro hok
      obtain ⟨hin', hleft, _⟩ := exhaust_balanced hxz hoff hin hok
      obtain ⟨v, hv⟩ := hin' x List.mem_cons_self
      obtain ⟨w, hw, hpair⟩ := hleft v hv
      exact ⟨v, hev.shrinks x v hv, w, hev.shrinks z w hw, hpair⟩
    · rintro ⟨v, hv, w, hw, hpair⟩
      exact (exhaust_keeps_paired hxz hv hw hpair).1
  · obtain ⟨_, hleft, _⟩ := exhaust_balanced hxz hoff hin hok
    constructor
    · intro hv
      obtain ⟨w, hw, hpair⟩ := hleft v hv
      exact ⟨hev.shrinks x v hv, w, hev.shrinks z w hw, hpair⟩
    · rintro ⟨hv, w, hw, hpair⟩
      exact (exhaust_keeps_paired hxz hv hw hpair).2.1
  -- the other side, read from right to left
  · obtain ⟨_, _, hright⟩ := exhaust_balanced hxz hoff hin hok
    constructor
    · intro hw
      obtain ⟨v, hv, hpair⟩ := hright w hw
      exact ⟨hev.shrinks z w hw, v, hev.shrinks x v hv, hpair⟩
    · rintro ⟨hw, v, hv, hpair⟩
      exact (exhaust_keeps_paired hxz hv hw hpair).2.2

/-- The run of `x + offset = z` ends where it should: it fails if no value of `x` has its sum among
    those of `z`, and otherwise leaves the values that have, and their sums. -/
def SumExact (s : Store) (id : ConstraintId) (x : Variable) (offset : Int) (z : Variable) : Prop :=
  Leaves s (s.exhaust id (.linear x offset .equal z)) x z fun v w => v + offset = w

/-- The run of a constraint does not contradict the verdict on it. -/
def Upholds (s : Store) (id : ConstraintId) (c : Constraint) : Prop :=
  (entailment s.domain c = .satisfied → (s.exhaust id c).1 = .ok ()) ∧
    (entailment s.domain c = .violated → (s.exhaust id c).1 ≠ .ok ())

/-- A verdict on a sum is about values that are as far apart as the offset. -/
theorem SumExact.upholds (h : SumExact s id x offset z) (hxz : x ≠ z) :
    Upholds s id (.linear x offset .equal z) := by
  refine ⟨fun hsat => ?_, fun hvio => ?_⟩
  · obtain ⟨v, hv, hw⟩ := (if_neg hxz ▸ linearEntailment_eq_satisfied.mp hsat :)
    rw [Domain.fixedValue?_eq_some] at hv hw
    exact h.ok_of_pair hv.1 hw.1 rfl
  · rw [h.fails_iff]
    rintro ⟨v, hv, w, hw, rfl⟩
    rcases (if_neg hxz ▸ linearEntailment_eq_violated.mp hvio :) with
      ⟨v', w', hv', hw', hne⟩ | ⟨_, hall⟩
    · rw [Domain.fixedValue?_eq_some] at hv' hw'
      rw [← hv'.2 v hv, ← hw'.2 _ hw] at hne
      exact hne rfl
    · refine hall _ hw (Domain.mem_shift.mpr ⟨v, hv, ?_⟩)
      exact saturate_of_inRange (Domain.inRange_of_mem hw)

/-- With the smallest offset the run is exact only where there is nothing to find. -/
theorem sumExact_smallest_iff (hxz : x ≠ z) (hin : Family.Inhabited s.domain [x, z]) :
    SumExact s id x minValue z ↔
      (∀ v ∈ s.domain x, v + minValue ∉ s.domain z) ∧
        ¬ (-1 ∈ s.domain x ∧ minValue ∈ s.domain z) := by
  have hpaired := (exhaust_sum id hxz (by decide) hin).congr
    (Q := fun v w => v = -1 ∧ w = minValue) fun v hv w hw =>
      paired_smallest_iff (Domain.inRange_of_mem hv) (Domain.inRange_of_mem hw)
  constructor
  · intro hexact
    have hno : ∀ v ∈ s.domain x, v + minValue ∉ s.domain z := by
      intro v hv hsum
      have hok := hexact.ok_of_pair hv hsum rfl
      -- the value should be left, but only -1 can be, and its sum is out of range
      have hleft := (hexact.left hok v).mpr ⟨hv, _, hsum, rfl⟩
      obtain ⟨_, w, _, rfl, _⟩ := (hpaired.left hok v).mp hleft
      exact absurd (Domain.inRange_of_mem hsum) (by decide)
    refine ⟨hno, fun ⟨hv, hw⟩ => ?_⟩
    have hok := hpaired.ok_of_pair hv hw ⟨rfl, rfl⟩
    refine hexact.fails_iff.mpr ?_ hok
    rintro ⟨v, hv, w, hw, rfl⟩
    exact hno v hv hw
  · rintro ⟨hno, hone⟩
    have hfails : (s.exhaust id (.linear x minValue .equal z)).1 ≠ .ok () := by
      rw [hpaired.fails_iff]
      rintro ⟨v, hv, w, hw, rfl, rfl⟩
      exact hone ⟨hv, hw⟩
    refine ⟨iff_of_true hfails ?_, fun hok => absurd hok hfails, fun hok => absurd hok hfails⟩
    rintro ⟨v, hv, w, hw, rfl⟩
    exact hno v hv hw

/-- **SUMS ARE EXACT** for every offset but the smallest integer, and for that one if and only if no
    value has its sum among those of the other variable, and the pair which is not told from one
    is not there either.  An exact run never contradicts the verdict.  The run is what the work of a
    store does with the constraint. -/
theorem sum_exact_iff (id : ConstraintId) (hxz : x ≠ z) (hoff : InRange offset)
    (hin : Family.Inhabited s.domain [x, z]) :
    (SumExact s id x offset z ↔
        offset ≠ minValue ∨
          (∀ v ∈ s.domain x, v + offset ∉ s.domain z) ∧
            ¬ (-1 ∈ s.domain x ∧ minValue ∈ s.domain z)) ∧
      (SumExact s id x offset z → Upholds s id (.linear x offset .equal z)) ∧
      (s.constraint? id = some (.linear x offset .equal z) →
        s.work (some id) =
          match s.exhaust id (.linear x offset .equal z) with
          | (.ok (), t) => t.work none
          | (.error why, t) => (.error why, t)) := by
  refine ⟨?_, fun hexact => hexact.upholds hxz, work_exhaust⟩
  by_cases hsmall : offset = minValue
  · subst hsmall
    rw [sumExact_smallest_iff hxz hin, or_iff_right fun hne => hne rfl]
  · refine iff_of_true ((exhaust_sum id hxz hoff hin).congr fun v hv w hw => ?_) (Or.inl hsmall)
    exact paired_iff hoff hsmall (Domain.inRange_of_mem hv) (Domain.inRange_of_mem hw)

end Sum

/-- A store with a variable that is 5, and one that is less by the smallest offset. -/
def farPair : Store :=
  (((Store.empty 0 none).newInteger 5 5 none).2.newInteger (5 + minValue) (5 + minValue) none).2

/-- With the smallest offset a sum that is satisfied is refused; with the next one it is exact. -/
theorem smallest_sum_in_farPair_is_not_exact :
    ((⟨0, 0⟩ : Variable) ≠ ⟨0, 1⟩ ∧ InRange minValue ∧ InRange (minValue + 1) ∧
      Family.Inhabited farPair.domain [⟨0, 0⟩, ⟨0, 1⟩]) ∧
    ¬ SumExact farPair (.ofIndex 0) ⟨0, 0⟩ minValue ⟨0, 1⟩ ∧
      entailment farPair.domain (.linear ⟨0, 0⟩ minValue .equal ⟨0, 1⟩) = .satisfied ∧
      SumExact farPair (.ofIndex 0) ⟨0, 0⟩ (minValue + 1) ⟨0, 1⟩ := by
  have hxz : (⟨0, 0⟩ : Variable) ≠ ⟨0, 1⟩ := by decide
  have hin : Family.Inhabited farPair.domain [⟨0, 0⟩, ⟨0, 1⟩] := fun v hv =>
    Domain.inhabited_of_not_isEmpty (by revert v; decide)
  have hsmall : InRange minValue := by decide
  have hnext : InRange (minValue + 1) := by decide
  refine ⟨⟨hxz, hsmall, hnext, hin⟩, fun hexact => ?_, by decide, ?_⟩
  · obtain ⟨hiff, _⟩ := sum_exact_iff (.ofIndex 0) hxz hsmall hin
    rcases hiff.mp hexact with hne | ⟨hno, _⟩
    · exact hne rfl
    · exact hno 5 (by decide) (by decide)
  · obtain ⟨hiff, _⟩ := sum_exact_iff (.ofIndex 0) hxz hnext hin
    exact hiff.mpr (Or.inl (by decide))

end Store

end ConstraintSolver
