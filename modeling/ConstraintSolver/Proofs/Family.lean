import Mathlib.Order.Basic
import ConstraintSolver.Domain.Pruning
import ConstraintSolver.Variable

/-! # Families of domains — one domain for every variable

    Domains are ordered by inclusion of their members, and families of
    domains pointwise.  Reasoning about constraints only ever moves down in
    this order, towards the families which give every variable a single
    value.  The bounds and the fixed value of a domain are described here by
    its members alone, so that no later proof looks at intervals. -/

namespace ConstraintSolver

namespace Domain

instance : PartialOrder Domain where
  le d e := ∀ v, v ∈ d → v ∈ e
  le_refl _ _ h := h
  le_trans _ _ _ h h' v hv := h' v (h v hv)
  le_antisymm _ _ h h' := ext fun v => ⟨h v, h' v⟩

theorem prune_le (d : Domain) (p : Pruning) : d.prune p ≤ d :=
  fun _ hv => (mem_prune.mp hv).1

/-- A pruning which keeps every member changes nothing. -/
theorem prune_eq_self_iff {d : Domain} {p : Pruning} :
    d.prune p = d ↔ ∀ v ∈ d, p.Keeps v := by
  constructor
  · intro h v hv
    rw [← h] at hv
    exact (mem_prune.mp hv).2
  · intro h
    refine le_antisymm (prune_le d p) fun v hv => ?_
    exact mem_prune.mpr ⟨hv, h v hv⟩

theorem inhabited_of_not_isEmpty {d : Domain} (h : d.isEmpty = false) : ∃ x, x ∈ d := by
  by_contra hno
  rw [← Bool.not_eq_true, isEmpty_iff] at h
  exact h fun x hx => hno ⟨x, hx⟩

/-! ## Bounds -/

theorem lowerBound_of_cons {d : Domain} {i : Interval} {rest : List Interval}
    (h : d.intervals = i :: rest) : d.lowerBound = i.lo := by
  simp [lowerBound, min?, h]

/-- No member lies below the lower bound. -/
theorem lowerBound_le {d : Domain} {v : Int} (h : v ∈ d) : d.lowerBound ≤ v := by
  cases hl : d.intervals with
  | nil => rw [mem_def, hl] at h; simp at h
  | cons i rest =>
      rw [lowerBound_of_cons hl]
      have hc : Canonical (i :: rest) := hl ▸ d.canonical
      have hv : Covers (i :: rest) v := hl ▸ h
      have hi := (Intervals.canonical_cons.mp hc).1.2.1
      rcases Intervals.covers_cons.mp hv with hm | hm
      · exact hm.1
      · have := Intervals.lt_of_covers_tail hc hm
        omega

/-- The lower bound is a member, if there is one. -/
theorem lowerBound_mem {d : Domain} (h : ∃ v, v ∈ d) : d.lowerBound ∈ d := by
  obtain ⟨v, hv⟩ := h
  cases hl : d.intervals with
  | nil => rw [mem_def, hl] at hv; simp at hv
  | cons i rest =>
      rw [lowerBound_of_cons hl, mem_def, hl]
      have hi := d.canonical.valid i (by simp [hl])
      exact ⟨i, List.mem_cons_self, Int.le_refl _, hi.2.1⟩

/-- The last interval of a canonical list ends at the largest covered
    integer. -/
theorem le_of_getLast? : ∀ {l : List Interval} {j : Interval} {v : Int}, Canonical l →
    l.getLast? = some j → Covers l v → v ≤ j.hi
  | [], _, _, _, _, hv => absurd hv (Intervals.not_covers_nil _)
  | [i], j, v, _, hj, hv => by
      simp only [List.getLast?_singleton, Option.some.injEq] at hj
      subst hj
      rcases Intervals.covers_cons.mp hv with hm | hm
      · exact hm.2
      · exact absurd hm (Intervals.not_covers_nil _)
  | i :: k :: rest, j, v, hc, hj, hv => by
      rw [List.getLast?_cons_cons] at hj
      have htail := (Intervals.canonical_cons.mp hc).2.2
      rcases Intervals.covers_cons.mp hv with hm | hm
      · -- the head ends before the next interval starts
        have hk := (Intervals.canonical_cons.mp hc).2.1 k List.mem_cons_self
        have hval := htail.valid k List.mem_cons_self
        have := le_of_getLast? htail hj (v := k.lo)
          ⟨k, List.mem_cons_self, Int.le_refl _, hval.2.1⟩
        have := hm.2
        simp only [Interval.Before] at hk
        omega
      · exact le_of_getLast? htail hj hm

theorem exists_getLast? {d : Domain} (h : ∃ v, v ∈ d) :
    ∃ j, d.intervals.getLast? = some j := by
  obtain ⟨v, i, hi, _⟩ := h
  cases hl : d.intervals.getLast? with
  | none => rw [List.getLast?_eq_none_iff.mp hl] at hi; simp at hi
  | some j => exact ⟨j, rfl⟩

/-- No member lies above the upper bound. -/
theorem le_upperBound {d : Domain} {v : Int} (h : v ∈ d) : v ≤ d.upperBound := by
  obtain ⟨j, hj⟩ := exists_getLast? ⟨v, h⟩
  have := le_of_getLast? d.canonical hj h
  simpa [upperBound, max?, hj] using this

/-- The upper bound is a member, if there is one. -/
theorem upperBound_mem {d : Domain} (h : ∃ v, v ∈ d) : d.upperBound ∈ d := by
  obtain ⟨j, hj⟩ := exists_getLast? h
  have hmem := List.mem_of_getLast? hj
  have hval := d.canonical.valid j hmem
  have : d.upperBound = j.hi := by simp [upperBound, max?, hj]
  rw [this, mem_def]
  exact ⟨j, hmem, hval.2.1, Int.le_refl _⟩

/-! ## Fixed domains -/

/-- A domain is fixed at a value exactly if it is the only member. -/
theorem fixedValue?_eq_some {d : Domain} {v : Int} :
    d.fixedValue? = some v ↔ v ∈ d ∧ ∀ w ∈ d, w = v := by
  rw [fixedValue?_eq_some_iff]
  constructor
  · rintro ⟨rfl, hr⟩
    exact ⟨mem_singleton.mpr ⟨hr, rfl⟩, fun w hw => (mem_singleton.mp hw).2⟩
  · rintro ⟨hv, hall⟩
    have hr := inRange_of_mem hv
    refine ⟨ext fun w => ?_, hr⟩
    rw [mem_singleton]
    constructor
    · intro hw
      exact ⟨hr, hall w hw⟩
    · rintro ⟨_, rfl⟩
      exact hv

/-- A domain is fixed exactly if it has one member. -/
theorem isFixed_iff {d : Domain} : d.isFixed = true ↔ ∃ v, v ∈ d ∧ ∀ w ∈ d, w = v := by
  rw [isFixed, Option.isSome_iff_exists]
  exact exists_congr fun v => fixedValue?_eq_some

/-- A fixed domain has no other member. -/
theorem mem_iff_of_fixed {d : Domain} {v : Int} (h : d.fixedValue? = some v) (w : Int) :
    w ∈ d ↔ w = v := by
  obtain ⟨hmem, hall⟩ := fixedValue?_eq_some.mp h
  exact ⟨hall w, fun hw => hw ▸ hmem⟩

/-- The bounds of a fixed domain are its value. -/
theorem bounds_of_fixed {d : Domain} {v : Int} (h : d.fixedValue? = some v) :
    d.lowerBound = v ∧ d.upperBound = v := by
  rw [fixedValue?_eq_some] at h
  exact ⟨h.2 _ (lowerBound_mem ⟨v, h.1⟩), h.2 _ (upperBound_mem ⟨v, h.1⟩)⟩

/-- A domain inside a fixed one has the same value, unless it is empty. -/
theorem fixedValue?_of_le {d e : Domain} {v : Int} (hle : e ≤ d) (hne : ∃ w, w ∈ e)
    (h : d.fixedValue? = some v) : e.fixedValue? = some v := by
  rw [fixedValue?_eq_some] at *
  obtain ⟨w, hw⟩ := hne
  have := h.2 w (hle w hw)
  exact ⟨this ▸ hw, fun u hu => h.2 u (hle u hu)⟩

/-- Domains do not overlap exactly if no value is common. -/
theorem overlaps_eq_false_iff {d e : Domain} : d.overlaps e = false ↔ ∀ v ∈ d, v ∉ e := by
  rw [← Bool.not_eq_true, overlaps_iff]
  simp

/-- Shifting keeps inclusion. -/
theorem shift_le_shift {d e : Domain} (h : e ≤ d) (offset : Int) :
    e.shift offset ≤ d.shift offset := by
  intro w hw
  obtain ⟨v, hv, hvw⟩ := mem_shift.mp hw
  exact mem_shift.mpr ⟨v, h v hv, hvw⟩

end Domain

/-- A domain for every variable. -/
abbrev Family := Variable → Domain

/-- An integer for every variable. -/
abbrev Assignment := Variable → Int

namespace Family

/-- Every variable of the list has a value left. -/
def Inhabited (F : Family) (vs : List Variable) : Prop := ∀ v ∈ vs, ∃ x, x ∈ F v

/-- The assignment takes the value of every variable of the list from its
    domain. -/
def Draws (F : Family) (vs : List Variable) (σ : Assignment) : Prop := ∀ v ∈ vs, σ v ∈ F v

theorem Inhabited.mono {F : Family} {vs ws : List Variable} (h : F.Inhabited ws)
    (hsub : ∀ v ∈ vs, v ∈ ws) : F.Inhabited vs :=
  fun v hv => h v (hsub v hv)

/-- What is drawn from the domains is a value for each of them. -/
theorem Draws.inhabited {F : Family} {vs : List Variable} {σ : Assignment} (h : F.Draws vs σ) :
    F.Inhabited vs :=
  fun v hv => ⟨σ v, h v hv⟩

theorem Draws.mono {F G : Family} {vs : List Variable} {σ : Assignment} (h : F.Draws vs σ)
    (hle : F ≤ G) : G.Draws vs σ :=
  fun v hv => hle v _ (h v hv)

/-- The family with nothing but the value of an assignment left for every
    variable, or nothing at all where that value is gone already. -/
def pointed (F : Family) (σ : Assignment) : Family := fun v => (F v).prune (.exactly (σ v))

/-- A value is left exactly if it is that of the assignment. -/
theorem mem_pointed {F : Family} {σ : Assignment} {v : Variable} {w : Int} :
    w ∈ F.pointed σ v ↔ w ∈ F v ∧ w = σ v := by
  rw [pointed, Domain.mem_prune]
  refine and_congr_right fun hw => Domain.mem_singleton.trans ?_
  constructor
  · exact And.right
  · rintro rfl
    exact ⟨Domain.inRange_of_mem hw, rfl⟩

theorem pointed_le (F : Family) (σ : Assignment) : F.pointed σ ≤ F :=
  fun _ _ hw => (mem_pointed.mp hw).1

/-- A value of the assignment that is available is the fixed one. -/
theorem fixedValue?_pointed {F : Family} {σ : Assignment} {v : Variable} (h : σ v ∈ F v) :
    (F.pointed σ v).fixedValue? = some (σ v) :=
  Domain.fixedValue?_eq_some.mpr ⟨mem_pointed.mpr ⟨h, rfl⟩, fun _ hw => (mem_pointed.mp hw).2⟩

/-- What is drawn from a family is drawn from what is left of it. -/
theorem Draws.pointed {F : Family} {vs : List Variable} {σ : Assignment} (h : F.Draws vs σ) :
    (F.pointed σ).Draws vs σ :=
  fun v hv => mem_pointed.mpr ⟨h v hv, rfl⟩

/-- The family with another domain for one variable. -/
def narrowed (F : Family) (v : Variable) (d : Domain) : Family := fun w => if w = v then d else F w

/-- Narrowing one domain narrows the family. -/
theorem narrowed_le {F : Family} {v : Variable} {d : Domain} (hd : d ≤ F v) :
    F.narrowed v d ≤ F := by
  intro w x hx
  by_cases hw : w = v
  · rw [narrowed, if_pos hw] at hx
    exact hw ▸ hd x hx
  · rwa [narrowed, if_neg hw] at hx

theorem narrowed_mono (F : Family) {v : Variable} {d e : Domain} (h : d ≤ e) :
    F.narrowed v d ≤ F.narrowed v e := by
  intro w x hx
  by_cases hw : w = v
  · rw [narrowed, if_pos hw] at hx ⊢
    exact h x hx
  · rwa [narrowed, if_neg hw] at hx ⊢

theorem narrowed_self (F : Family) (v : Variable) : F.narrowed v (F v) = F := by
  funext w
  by_cases hw : w = v
  · rw [narrowed, if_pos hw, hw]
  · rw [narrowed, if_neg hw]

/-- What is drawn from the smaller family is drawn from the larger one, with the
    value of the one variable in its new domain. -/
theorem draws_narrowed_iff {F : Family} {v : Variable} {d : Domain} (hd : d ≤ F v)
    {vs : List Variable} (hv : v ∈ vs) {σ : Assignment} :
    (F.narrowed v d).Draws vs σ ↔ F.Draws vs σ ∧ σ v ∈ d := by
  constructor
  · intro h
    refine ⟨h.mono (narrowed_le hd), ?_⟩
    have := h v hv
    rwa [narrowed, if_pos rfl] at this
  · rintro ⟨h, hσ⟩ w hw
    by_cases hwv : w = v
    · rw [narrowed, if_pos hwv, hwv]
      exact hσ
    · rw [narrowed, if_neg hwv]
      exact h w hw

end Family

end ConstraintSolver
