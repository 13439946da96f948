import ConstraintSolver.Proofs.Reasoning

/-! # Primitives — when a relation between variables has nothing to prune

    For every primitive relation there is a condition on the domains, its
    balance, under which propagation is idle.  The balance is described by
    membership alone, and three facts are proved of it:

    * a relation that is known to hold is balanced, and one that is known to
      be violated is not;
    * a family that is balanced is spared by propagation on all larger
      families, since what is read there allows at least as much.

    The two directions of a relation are the same step with the variables
    exchanged: `into` prunes a variable to the values of another, `apart`
    takes the fixed value of one away from the other. -/

namespace ConstraintSolver

namespace Constraint

open Step Entailment

/-! ## The values of another variable -/

section Into

variable {f : Domain → Domain} {x y : Variable} {S : List Variable} {D : Domains} {G : Family}

/-- Carrying one domain over into another is idle exactly if the values are there already. -/
theorem idle_into_iff (hx : ∃ v, v ∈ D.get x) :
    Idle (into f y x) D ↔ D.get x ≤ f (D.get y) :=
  idle_narrow_iff.trans (and_iff_right hx)

/-- Carrying over spares a smaller family that is carried over already. -/
theorem spares_into (hf : ∀ d e, e ≤ d → f e ≤ f d) (hle : G ≤ D.get) (hx : ∃ v, v ∈ G x)
    (h : G x ≤ f (G y)) : Spares (into f y x) D G :=
  spares_narrow hle hx fun v hv => hf _ _ (hle y) v (h v hv)

end Into

/-! ## Fixed values kept apart -/

/-- The value of `y`, moved by the offset, is not one of `x` if `y` is fixed. -/
def Apart (F : Family) (offset : Int) (y x : Variable) : Prop :=
  ∀ v, (F y).fixedValue? = some v → v + offset ∉ F x

section Apart

variable {offset : Int} {x y : Variable} {S : List Variable} {D : Domains} {G : Family}

/-- Keeping two variables apart is idle exactly if they are apart. -/
theorem idle_apart_iff (hx : ∃ v, v ∈ D.get x) :
    Idle (apart offset y x) D ↔ Apart D.get offset y x := by
  rw [apart, idle_reading_iff, Apart]
  cases hy : (D.get y).fixedValue? with
  | none => exact iff_of_true (idle_done D) fun v hv => nomatch hv
  | some value =>
      simp only [Option.some.injEq, forall_eq']
      split
      · refine (idle_narrow_iff.trans (and_iff_right hx)).trans ?_
        exact ⟨fun h hm => h _ hm rfl, fun h v hv heq => h (heq ▸ hv)⟩
      · rename_i hr
        exact iff_of_true (idle_done D) fun hm => hr (Domain.inRange_of_mem hm)

/-- Keeping apart spares a smaller family in which the variables are apart. -/
theorem spares_apart (hle : G ≤ D.get) (hy : ∃ v, v ∈ G y) (hx : ∃ v, v ∈ G x)
    (h : Apart G offset y x) : Spares (apart offset y x) D G := by
  rw [apart, spares_reading_iff]
  cases hfix : (D.get y).fixedValue? with
  | none => exact spares_done hle
  | some value =>
      have hG := h value (Domain.fixedValue?_of_le (hle y) hy hfix)
      simp only
      split
      · exact spares_narrow hle hx fun v hv heq => hG (heq ▸ hv)
      · exact spares_done hle

end Apart

/-! ## Equality -/

/-- When there is nothing to prune for `x relation rhs`. -/
def EqualityBalance (F : Family) (x : Variable) : EqualityRelation → Term → Prop
  | .equal, .constant value => (F x).fixedValue? = some value
  | .notEqual, .constant value => value ∉ F x
  | .equal, .variable y => y = x ∨ F x = F y
  | .notEqual, .variable y => y ≠ x ∧ Apart F 0 x y ∧ Apart F 0 y x

section Equality

variable {x : Variable} {relation : EqualityRelation} {rhs : Term} {F : Family}

/-- Keeping exactly one value keeps no other, and none outside the range. -/
theorem keeps_exactly {value w : Int} :
    (Pruning.exactly value).Keeps w ↔ InRange value ∧ w = value := Domain.mem_singleton

/-- Of the domain only the one value is left. -/
theorem mem_prune_exactly {d : Domain} {value w : Int} (hmem : value ∈ d) :
    w ∈ d.prune (.exactly value) ↔ w = value := by
  rw [Domain.mem_prune, keeps_exactly]
  constructor
  · exact fun hw => hw.2.2
  · rintro rfl
    exact ⟨hmem, Domain.inRange_of_mem hmem, rfl⟩

/-- **EQUALITY** is idle exactly if it is in balance. -/
theorem idle_equality_iff {D : Domains}
    (hin : Family.Inhabited D.get (occurrences (.equality x relation rhs))) :
    Idle (propagateEquality x relation rhs) D ↔ EqualityBalance D.get x relation rhs := by
  cases rhs with
  | constant value =>
      have hx := hin x List.mem_cons_self
      cases relation with
      | equal =>
          refine (idle_narrow_iff.trans (and_iff_right hx)).trans ?_
          rw [EqualityBalance, Domain.fixedValue?_eq_some]
          obtain ⟨v, hv⟩ := hx
          constructor
          · intro h
            have hall : ∀ w ∈ D.get x, w = value := fun w hw => (keeps_exactly.mp (h w hw)).2
            exact ⟨hall v hv ▸ hv, hall⟩
          · rintro ⟨hm, hall⟩ w hw
            exact keeps_exactly.mpr ⟨Domain.inRange_of_mem hm, hall w hw⟩
      | notEqual =>
          refine (idle_narrow_iff.trans (and_iff_right hx)).trans ?_
          exact ⟨fun h hm => h _ hm rfl, fun h v hv heq => h (heq ▸ hv)⟩
  | «variable» y =>
      have hx := hin x List.mem_cons_self
      have hy := hin y (List.mem_cons_of_mem _ List.mem_cons_self)
      have hmx : x ∈ [x, y] := by simp
      have hmy : y ∈ [x, y] := by simp
      cases relation with
      | equal =>
          rw [propagateEquality_equal, EqualityBalance]
          split
          · rename_i hyx
            exact iff_of_true (idle_done D) (Or.inl hyx)
          · rename_i hyx
            -- neither narrowing removes anything if and only if the two domains are the same
            rw [idle_andThen_iff (built_into hmy hmx) (built_into hmx hmy), idle_into_iff hx,
              idle_into_iff hy, or_iff_right hyx]
            exact le_antisymm_iff.symm
      | notEqual =>
          rw [propagateEquality_notEqual, EqualityBalance]
          split
          · rename_i hyx
            exact iff_of_false (not_idle_fail _ D) fun h => h.1 hyx
          · rename_i hyx
            rw [idle_andThen_iff (built_apart hmx hmy) (built_apart hmy hmx), idle_apart_iff hy,
              idle_apart_iff hx, and_iff_right hyx]

/-- An equality which is known to hold is in balance. -/
theorem equalityBalance_of_satisfied
    (h : under relation (equalityEntailment F x rhs) = .satisfied) :
    EqualityBalance F x relation rhs := by
  cases relation with
  | equal =>
      cases rhs with
      | constant value => exact equalityEntailment_constant_eq_satisfied.mp h
      | «variable» y =>
          refine (equalityEntailment_variable_eq_satisfied.mp h).imp_right ?_
          rintro ⟨v, hx, hy⟩
          rw [Domain.fixedValue?_eq_some_iff] at hx hy
          rw [hx.1, hy.1]
  | notEqual =>
      rw [under, negated_eq_satisfied] at h
      cases rhs with
      | constant value => exact equalityEntailment_constant_eq_violated.mp h
      | «variable» y =>
          obtain ⟨hne, hall⟩ := equalityEntailment_variable_eq_violated.mp h
          refine ⟨hne, fun v hv hm => ?_, fun v hv hm => ?_⟩
          · rw [Int.add_zero] at hm
            exact hall v (Domain.fixedValue?_eq_some.mp hv).1 hm
          · rw [Int.add_zero] at hm
            exact hall v hm (Domain.fixedValue?_eq_some.mp hv).1

/-- An equality which is known to fail is not in balance. -/
theorem not_equalityBalance_of_violated
    (hin : F.Inhabited (occurrences (.equality x relation rhs)))
    (h : under relation (equalityEntailment F x rhs) = .violated) :
    ¬ EqualityBalance F x relation rhs := by
  cases relation with
  | equal =>
      cases rhs with
      | constant value =>
          intro hfix
          exact equalityEntailment_constant_eq_violated.mp h (Domain.fixedValue?_eq_some.mp hfix).1
      | «variable» y =>
          obtain ⟨hne, hall⟩ := equalityEntailment_variable_eq_violated.mp h
          obtain ⟨v, hv⟩ := hin x List.mem_cons_self
          rintro (heq | heq)
          · exact hne heq
          · exact hall v hv (heq ▸ hv)
  | notEqual =>
      rw [under, negated_eq_violated] at h
      cases rhs with
      | constant value =>
          have hfix := equalityEntailment_constant_eq_satisfied.mp h
          exact fun hnot => hnot (Domain.fixedValue?_eq_some.mp hfix).1
      | «variable» y =>
          rintro ⟨hne, hxy, _⟩
          obtain ⟨v, hx, hy⟩ := (equalityEntailment_variable_eq_satisfied.mp h).resolve_left hne
          have hm := hxy v hx
          rw [Int.add_zero] at hm
          exact hm (Domain.fixedValue?_eq_some.mp hy).1

/-- An equality spares a smaller family in balance. -/
theorem spares_equality {D : Domains} {G : Family} (hle : G ≤ D.get)
    (hin : G.Inhabited (occurrences (.equality x relation rhs)))
    (h : EqualityBalance G x relation rhs) : Spares (propagateEquality x relation rhs) D G := by
  cases rhs with
  | constant value =>
      have hx := hin x List.mem_cons_self
      cases relation with
      | equal =>
          obtain ⟨hm, hall⟩ := Domain.fixedValue?_eq_some.mp h
          exact spares_narrow hle hx fun v hv =>
            keeps_exactly.mpr ⟨Domain.inRange_of_mem hm, hall v hv⟩
      | notEqual => exact spares_narrow hle hx fun v hv heq => h (heq ▸ hv)
  | «variable» y =>
      have hx := hin x List.mem_cons_self
      have hy := hin y (List.mem_cons_of_mem _ List.mem_cons_self)
      have hmx : x ∈ [x, y] := by simp
      have hmy : y ∈ [x, y] := by simp
      cases relation with
      | equal =>
          rw [propagateEquality_equal]
          split
          · exact spares_done hle
          · rename_i hyx
            have heq := h.resolve_left hyx
            refine spares_andThen (built_into hmy hmx)
              (spares_into (fun _ _ hde => hde) hle hx heq.le) fun E hE _ => ?_
            exact spares_into (fun _ _ hde => hde) hE hy heq.ge
      | notEqual =>
          obtain ⟨hne, hxy, hyx⟩ := h
          rw [propagateEquality_notEqual, if_neg hne]
          exact spares_andThen (built_apart hmx hmy) (spares_apart hle hx hy hxy) fun E hE _ =>
            spares_apart hE hy hx hyx

end Equality

/-! ## Order -/

/-- When there is nothing to prune for `smaller + gap ≤ larger`. -/
def OrderBalance (F : Family) (order : LessOrEqual) : Prop :=
  if order.smaller = order.larger then order.gap = 0
  else
    order.smaller.upperBound F ≤ saturate (order.larger.upperBound F - order.gap) ∧
      saturate (order.smaller.lowerBound F + order.gap) ≤ order.larger.lowerBound F

section Order

variable {order : LessOrEqual} {S : List Variable} {D : Domains} {F G : Family}

/-- The smaller term is in place exactly if its upper bound leaves room for the gap. -/
theorem idle_lowerSmaller_iff (hover : order.Over S) (hin : Family.Inhabited D.get S) :
    Idle (lowerSmaller order) D ↔
      order.smaller.upperBound D.get ≤ saturate (order.larger.upperBound D.get - order.gap) := by
  rw [lowerSmaller, idle_reading_iff]
  cases hsm : order.smaller with
  | «variable» v =>
      have hv := hin v (hover v (.inl hsm))
      refine (idle_narrow_iff.trans (and_iff_right hv)).trans ?_
      constructor
      · exact fun h => h _ (Domain.upperBound_mem hv)
      · exact fun h x hx => Int.le_trans (Domain.le_upperBound hx) h
  | constant value =>
      simp only
      split
      · rename_i hlt
        exact iff_of_false (not_idle_fail _ D) (Int.not_le.mpr hlt)
      · rename_i hlt
        exact iff_of_true (idle_done D) (Int.not_lt.mp hlt)

/-- The larger term is in place exactly if its lower bound leaves room for the gap. -/
theorem idle_raiseLarger_iff (hover : order.Over S) (hin : Family.Inhabited D.get S) :
    Idle (raiseLarger order) D ↔
      saturate (order.smaller.lowerBound D.get + order.gap) ≤ order.larger.lowerBound D.get := by
  rw [raiseLarger, idle_reading_iff]
  cases hla : order.larger with
  | «variable» v =>
      have hv := hin v (hover v (.inr hla))
      refine (idle_narrow_iff.trans (and_iff_right hv)).trans ?_
      constructor
      · exact fun h => h _ (Domain.lowerBound_mem hv)
      · exact fun h x hx => Int.le_trans h (Domain.lowerBound_le hx)
  | constant value =>
      simp only
      split
      · rename_i hlt
        exact iff_of_false (not_idle_fail _ D) (Int.not_le.mpr hlt)
      · rename_i hlt
        exact iff_of_true (idle_done D) (Int.not_lt.mp hlt)

/-- **ORDER** is idle exactly if it is in balance. -/
theorem idle_order_iff (hover : order.Over S) (hin : Family.Inhabited D.get S) :
    Idle (propagateOrder order) D ↔ OrderBalance D.get order := by
  rw [propagateOrder_eq, OrderBalance]
  split
  · split
    · rename_i hgap
      exact iff_of_true (idle_done D) hgap
    · rename_i hgap
      exact iff_of_false (not_idle_fail _ D) hgap
  · rw [idle_andThen_iff (built_lowerSmaller hover) (built_raiseLarger hover),
      idle_lowerSmaller_iff hover hin, idle_raiseLarger_iff hover hin]

theorem LessOrEqual.Over.lowerBound_le (hover : order.Over S) (hin : G.Inhabited S) :
    order.smaller.lowerBound G ≤ order.smaller.upperBound G ∧
      order.larger.lowerBound G ≤ order.larger.upperBound G :=
  ⟨Term.lowerBound_le_upperBound fun y hy => hin y (hover y (.inl hy)),
    Term.lowerBound_le_upperBound fun y hy => hin y (hover y (.inr hy))⟩

/-- What is known of an order relation over a list of variables with values:
    one of its sides is a variable, and the gap is 0 or 1. -/
structure OrderShape (G : Family) (order : LessOrEqual) : Prop where
  smaller : order.smaller.lowerBound G ≤ order.smaller.upperBound G
  larger : order.larger.lowerBound G ≤ order.larger.upperBound G
  gap : order.gap = 0 ∨ order.gap = 1
  inRange : (InRange (order.smaller.lowerBound G) ∧ InRange (order.smaller.upperBound G)) ∨
    (InRange (order.larger.lowerBound G) ∧ InRange (order.larger.upperBound G))

/-- The normal form of an order between terms with values has the right shape. -/
theorem orderShape {x : Variable} {relation : OrderRelation} {rhs : Term}
    (hin : G.Inhabited (occurrences (.ordering x relation rhs))) :
    OrderShape G (relation.normalForm x rhs) := by
  have hx : ∃ v, v ∈ G x := hin x (by cases rhs <;> simp [occurrences])
  have hrange : InRange ((Term.variable x).lowerBound G) ∧
      InRange ((Term.variable x).upperBound G) :=
    ⟨Domain.inRange_of_mem (Domain.lowerBound_mem hx),
      Domain.inRange_of_mem (Domain.upperBound_mem hx)⟩
  obtain ⟨hs, hl⟩ := LessOrEqual.Over.lowerBound_le (over_normalForm x relation rhs) hin
  refine ⟨hs, hl, ?_, ?_⟩
  · cases relation <;> simp [OrderRelation.normalForm]
  · cases relation with
    | less | lessOrEqual => exact Or.inl hrange
    | greater | greaterOrEqual => exact Or.inr hrange

/-- An order which is known to hold is in balance. -/
theorem orderBalance_of_satisfied (hshape : OrderShape F order)
    (h : orderEntailment F order = .satisfied) : OrderBalance F order := by
  rw [orderEntailment_eq_satisfied] at h
  rw [OrderBalance]
  split
  · rename_i heq
    rwa [if_pos heq] at h
  · rename_i heq
    rw [if_neg heq] at h
    obtain ⟨hs, hl, hgap, hrange⟩ := hshape
    simp only [InRange, saturate, minValue, maxValue] at *
    omega

/-- An order which is known to fail is not in balance. -/
theorem not_orderBalance_of_violated (hshape : OrderShape F order)
    (h : orderEntailment F order = .violated) : ¬ OrderBalance F order := by
  rw [orderEntailment_eq_violated] at h
  rw [OrderBalance]
  split
  · rename_i heq
    rwa [if_pos heq] at h
  · rename_i heq
    rw [if_neg heq] at h
    obtain ⟨hs, hl, hgap, hrange⟩ := hshape
    simp only [InRange, saturate, minValue, maxValue] at *
    omega

theorem spares_lowerSmaller (hover : order.Over S) (hin : G.Inhabited S) (hle : G ≤ D.get)
    (h : order.smaller.upperBound G ≤ saturate (order.larger.upperBound G - order.gap)) :
    Spares (lowerSmaller order) D G := by
  have hupper : order.larger.upperBound G ≤ order.larger.upperBound D.get :=
    Term.upperBound_le_of_le hle fun y hy => hin y (hover y (.inr hy))
  have hbound := Int.le_trans h (saturate_mono (Int.sub_le_sub_right hupper order.gap))
  rw [lowerSmaller, spares_reading_iff]
  cases hsm : order.smaller with
  | «variable» v =>
      rw [hsm] at hbound
      exact spares_narrow hle (hin v (hover v (.inl hsm))) fun x hx =>
        Int.le_trans (Domain.le_upperBound hx) hbound
  | constant value =>
      rw [hsm] at hbound
      simp only
      split
      · rename_i hlt
        exact absurd hlt (Int.not_lt.mpr hbound)
      · exact spares_done hle

theorem spares_raiseLarger (hover : order.Over S) (hin : G.Inhabited S) (hle : G ≤ D.get)
    (h : saturate (order.smaller.lowerBound G + order.gap) ≤ order.larger.lowerBound G) :
    Spares (raiseLarger order) D G := by
  have hlower : order.smaller.lowerBound D.get ≤ order.smaller.lowerBound G :=
    Term.lowerBound_le_of_le hle fun y hy => hin y (hover y (.inl hy))
  have hbound := Int.le_trans (saturate_mono (Int.add_le_add_right hlower order.gap)) h
  rw [raiseLarger, spares_reading_iff]
  cases hla : order.larger with
  | «variable» v =>
      rw [hla] at hbound
      exact spares_narrow hle (hin v (hover v (.inr hla))) fun x hx =>
        Int.le_trans hbound (Domain.lowerBound_le hx)
  | constant value =>
      rw [hla] at hbound
      simp only
      split
      · rename_i hlt
        exact absurd hlt (Int.not_lt.mpr hbound)
      · exact spares_done hle

/-- An order spares a smaller family in balance. -/
theorem spares_order (hover : order.Over S) (hin : G.Inhabited S) (hle : G ≤ D.get)
    (h : OrderBalance G order) : Spares (propagateOrder order) D G := by
  rw [propagateOrder_eq]
  rw [OrderBalance] at h
  split
  · rename_i heq
    rw [if_pos heq] at h
    rw [if_pos h]
    exact spares_done hle
  · rename_i heq
    rw [if_neg heq] at h
    exact spares_andThen (built_lowerSmaller hover) (spares_lowerSmaller hover hin hle h.1)
      fun E hE _ => spares_raiseLarger hover hin hE h.2

end Order

/-! ## Sums -/

/-- When there is nothing to prune for `x + offset relation z`. -/
def LinearBalance (F : Family) (x : Variable) (offset : Int) (z : Variable) :
    EqualityRelation → Prop
  | .equal =>
      if x = z then offset = 0
      else F z ≤ (F x).shift offset ∧ F x ≤ (F z).shift (saturate (-offset))
  | .notEqual =>
      if x = z then offset ≠ 0 else Apart F offset x z ∧ Apart F (-offset) z x

section Linear

variable {x z : Variable} {offset : Int} {relation : EqualityRelation} {D : Domains}
  {F G : Family}

/-- **SUM** is idle exactly if it is in balance. -/
theorem idle_linear_iff (hin : Family.Inhabited D.get [x, z]) :
    Idle (propagateLinear x offset relation z) D ↔ LinearBalance D.get x offset z relation := by
  have hx := hin x List.mem_cons_self
  have hz := hin z (List.mem_cons_of_mem _ List.mem_cons_self)
  have hmx : x ∈ [x, z] := by simp
  have hmz : z ∈ [x, z] := by simp
  cases relation with
  | equal =>
      rw [propagateLinear_equal, LinearBalance]
      split
      · split
        · rename_i h0
          exact iff_of_true (idle_done D) h0
        · rename_i h0
          exact iff_of_false (not_idle_fail _ D) h0
      -- two variables: each domain must lie in the shifted other one
      · rw [idle_andThen_iff (built_into hmx hmz) (built_into hmz hmx), idle_into_iff hz,
          idle_into_iff hx]
  | notEqual =>
      rw [propagateLinear_notEqual, LinearBalance]
      split
      · split
        · rename_i h0
          exact iff_of_false (not_idle_fail _ D) fun hne => hne h0
        · rename_i h0
          exact iff_of_true (idle_done D) h0
      · rw [idle_andThen_iff (built_apart hmx hmz) (built_apart hmz hmx), idle_apart_iff hz,
          idle_apart_iff hx]

/-- A sum which is known to hold is in balance. -/
theorem linearBalance_of_satisfied (hneg : InRange (-offset))
    (h : under relation (linearEntailment F x offset z) = .satisfied) :
    LinearBalance F x offset z relation := by
  cases relation with
  | equal =>
      rw [under, linearEntailment_eq_satisfied] at h
      rw [LinearBalance]
      split
      · rename_i hxz
        rwa [if_pos hxz] at h
      · rename_i hxz
        rw [if_neg hxz] at h
        -- both variables are fixed, and the offset leads from one value to the other
        obtain ⟨v, hv, hw⟩ := h
        rw [Domain.fixedValue?_eq_some] at hv hw
        refine ⟨fun w hwm => Domain.mem_shift.mpr ⟨v, hv.1, ?_⟩,
          fun u hum => Domain.mem_shift.mpr ⟨v + offset, hw.1, ?_⟩⟩
        · rw [hw.2 w hwm, saturate_of_inRange (Domain.inRange_of_mem hw.1)]
        · rw [hv.2 u hum, saturate_of_inRange hneg, Int.add_neg_cancel_right,
            saturate_of_inRange (Domain.inRange_of_mem hv.1)]
  | notEqual =>
      rw [under, negated_eq_satisfied, linearEntailment_eq_violated] at h
      rw [LinearBalance]
      split
      · rename_i hxz
        rwa [if_pos hxz] at h
      · rename_i hxz
        rw [if_neg hxz] at h
        -- no pair with a fixed member is as far apart as the offset
        have hno : ∀ v w, v ∈ F x → w ∈ F z → (F x).fixedValue? = some v ∨
            (F z).fixedValue? = some w → v + offset ≠ w := by
          intro v w hv hw hfix heq
          rcases h with ⟨v', w', hv', hw', hne⟩ | ⟨_, hall⟩
          · rw [Domain.fixedValue?_eq_some] at hv' hw'
            rw [hv'.2 v hv, hw'.2 w hw] at heq
            exact hne heq
          · refine hall w hw (Domain.mem_shift.mpr ⟨v, hv, ?_⟩)
            rw [heq, saturate_of_inRange (Domain.inRange_of_mem hw)]
        refine ⟨fun v hv hm => ?_, fun w hw hm => ?_⟩
        · exact hno v _ (Domain.fixedValue?_eq_some.mp hv).1 hm (.inl hv) rfl
        · exact hno _ w hm (Domain.fixedValue?_eq_some.mp hw).1 (.inr hw)
            (Int.neg_add_cancel_right w offset)

/-- A sum which is known to fail is not in balance. -/
theorem not_linearBalance_of_violated (hin : F.Inhabited [x, z])
    (hneg : InRange (-offset)) (h : under relation (linearEntailment F x offset z) = .violated) :
    ¬ LinearBalance F x offset z relation := by
  cases relation with
  | equal =>
      rw [under, linearEntailment_eq_violated] at h
      rw [LinearBalance]
      split
      · rename_i hxz
        rwa [if_pos hxz] at h
      · rename_i hxz
        rw [if_neg hxz] at h
        rintro ⟨hzx, hxz⟩
        rcases h with ⟨v, w, hv, hw, hne⟩ | ⟨_, hall⟩
        · -- a sum which saturates does not come back when the offset is taken away
          rw [Domain.fixedValue?_eq_some] at hv hw
          obtain ⟨v', hv', hvw⟩ := Domain.mem_shift.mp (hzx w hw.1)
          obtain ⟨w', hw', hwv⟩ := Domain.mem_shift.mp (hxz v hv.1)
          rw [hv.2 v' hv'] at hvw
          rw [hw.2 w' hw'] at hwv
          have hvr := Domain.inRange_of_mem hv.1
          have hwr := Domain.inRange_of_mem hw.1
          simp only [InRange, saturate, minValue, maxValue] at *
          omega
        · obtain ⟨w, hw⟩ := hin z (List.mem_cons_of_mem _ List.mem_cons_self)
          exact hall w hw (hzx w hw)
  | notEqual =>
      rw [under, negated_eq_violated, linearEntailment_eq_satisfied] at h
      rw [LinearBalance]
      split
      · rename_i hxz
        rw [if_pos hxz] at h
        exact fun hne => hne h
      · rename_i hxz
        rw [if_neg hxz] at h
        obtain ⟨v, hv, hw⟩ := h
        exact fun hapart => hapart.1 v hv (Domain.fixedValue?_eq_some.mp hw).1

/-- A sum spares a smaller family in balance. -/
theorem spares_linear (hle : G ≤ D.get) (hin : G.Inhabited [x, z])
    (h : LinearBalance G x offset z relation) :
    Spares (propagateLinear x offset relation z) D G := by
  have hx := hin x List.mem_cons_self
  have hz := hin z (List.mem_cons_of_mem _ List.mem_cons_self)
  have hmx : x ∈ [x, z] := by simp
  have hmz : z ∈ [x, z] := by simp
  cases relation with
  | equal =>
      rw [LinearBalance] at h
      rw [propagateLinear_equal]
      split
      · rename_i hxz
        rw [if_pos hxz] at h
        rw [if_pos h]
        exact spares_done hle
      · rename_i hxz
        rw [if_neg hxz] at h
        exact spares_andThen (built_into hmx hmz)
          (spares_into (fun _ _ hde => Domain.shift_le_shift hde _) hle hz h.1) fun E hE _ =>
            spares_into (fun _ _ hde => Domain.shift_le_shift hde _) hE hx h.2
  | notEqual =>
      rw [LinearBalance] at h
      rw [propagateLinear_notEqual]
      split
      · rename_i hxz
        rw [if_pos hxz] at h
        rw [if_neg h]
        exact spares_done hle
      · rename_i hxz
        rw [if_neg hxz] at h
        exact spares_andThen (built_apart hmx hmz) (spares_apart hle hx hz h.1) fun E hE _ =>
          spares_apart hE hz hx h.2

end Linear

/-! ## Elements of arrays -/

/-- The values of an element are those of the variables which the indices select. -/
theorem mem_elementValues {F : Family} {indices : Domain} {array : List Variable} {first w : Int} :
    w ∈ elementValues F indices array first ↔
      ∃ i ∈ indices, ∃ a, elementAt? array first i = some a ∧ w ∈ F a := by
  induction array generalizing first with
  | nil =>
      refine iff_of_false (Domain.not_mem_empty w) ?_
      rintro ⟨i, _, a, ha, _⟩
      exact absurd (mem_of_elementAt? ha) (by simp)
  | cons b rest ih =>
      -- an element of the array is the first one, at the first index, or one of the rest
      have hsplit : (∃ i ∈ indices, ∃ a, elementAt? (b :: rest) first i = some a ∧ w ∈ F a) ↔
          (∃ i ∈ indices, ∃ a, elementAt? rest (first + 1) i = some a ∧ w ∈ F a) ∨
            (first ∈ indices ∧ w ∈ F b) := by
        simp only [elementAt?_cons]
        constructor
        · rintro ⟨i, hi, a, ha | ha, hw⟩
          · exact Or.inr ⟨ha.1 ▸ hi, ha.2 ▸ hw⟩
          · exact Or.inl ⟨i, hi, a, ha, hw⟩
        · rintro (⟨i, hi, a, ha, hw⟩ | ⟨hi, hw⟩)
          · exact ⟨i, hi, a, Or.inr ha, hw⟩
          · exact ⟨first, hi, b, Or.inl ⟨rfl, rfl⟩, hw⟩
      rw [hsplit, ← ih, elementValues]
      split
      · rename_i hc
        rw [Domain.mem_union, and_iff_right (Domain.contains_iff.mp hc)]
      · rename_i hc
        rw [Domain.contains_iff] at hc
        exact (or_iff_left fun h => hc h.1).symm

/-- When there is nothing to prune for an element constraint. -/
structure ElementBalance (F : Family) (index : Variable) (array : List Variable)
    (rhs : Variable) (first : Int) : Prop where
  /-- Every index has an element which can be equal to the right-hand side. -/
  indices : ∀ i ∈ F index, ∃ a, elementAt? array first i = some a ∧ ∃ v ∈ F a, v ∈ F rhs
  /-- Every value is one of an element. -/
  values : ∀ w ∈ F rhs, ∃ i ∈ F index, ∃ a, elementAt? array first i = some a ∧ w ∈ F a
  /-- The element at a fixed index has the same values. -/
  selected : ∀ i a, (F index).fixedValue? = some i → elementAt? array first i = some a →
    F a = F rhs

section Element

variable {index : Variable} {array : List Variable} {rhs : Variable} {first : Int}
  {F G : Family} {D : Domains}

/-- An index is kept exactly if what it selects has a value in common with the result. -/
theorem keeps_supported {F : Family} {i : Int} :
    (Pruning.within (Domain.ofValues (supportedIndices F (F rhs) array first))).Keeps i ↔
      InRange i ∧ ∃ a, elementAt? array first i = some a ∧ ∃ v ∈ F a, v ∈ F rhs := by
  refine Domain.mem_ofValues.trans (and_congr_right fun _ => ?_)
  rw [mem_supportedIndices]
  simp only [Domain.overlaps_iff]

/-- Joining is idle exactly if the variable selected by a fixed index has the domain of the
    result. -/
theorem idle_joinSelected_iff
    (hin : Family.Inhabited D.get (occurrences (.element index array rhs first))) :
    Idle (joinSelected index array rhs first) D ↔
      ∀ i a, (D.get index).fixedValue? = some i → elementAt? array first i = some a →
        D.get a = D.get rhs := by
  have hr := hin rhs (by simp [occurrences])
  rw [joinSelected, idle_reading_iff]
  cases hsel : (D.get index).fixedValue?.bind (elementAt? array first) with
  | none =>
      refine iff_of_true (idle_done D) fun i a hi ha => ?_
      rw [hi, Option.bind_some, ha] at hsel
      cases hsel
  | some selected =>
      -- the index is fixed, so its element is the only one that is selected
      obtain ⟨i, hi, hia⟩ := Option.bind_eq_some_iff.mp hsel
      have hs := hin selected (by simp [occurrences, mem_of_elementAt? hia])
      have hms : selected ∈ [selected, rhs] := by simp
      have hmr : rhs ∈ [selected, rhs] := by simp
      rw [idle_andThen_iff (.narrow _ hms) (built_into hms hmr), idle_narrow_iff,
        and_iff_right hs, idle_into_iff hr]
      constructor
      · rintro ⟨h, h'⟩ i' a hi' ha
        obtain rfl : i = i' := Option.some.inj (hi.symm.trans hi')
        obtain rfl : selected = a := Option.some.inj (hia.symm.trans ha)
        exact le_antisymm h h'
      · intro h
        have heq := h i selected hi hia
        exact ⟨fun v hv => heq ▸ hv, heq.ge⟩

/-- **ELEMENT** is idle exactly if it is in balance. -/
theorem idle_element_iff
    (hin : Family.Inhabited D.get (occurrences (.element index array rhs first))) :
    Idle (propagateElement index array rhs first) D ↔
      ElementBalance D.get index array rhs first := by
  have hi := hin index List.mem_cons_self
  have hr := hin rhs (by simp [occurrences])
  rw [propagateElement_eq, idle_inOrder_iff (built_elementSteps index array rhs first)]
  simp only [elementSteps, List.forall_mem_cons, List.not_mem_nil, false_implies, implies_true,
    and_true, idle_reading_iff, idle_narrow_iff, hi, hr, true_and, keeps_supported,
    idle_joinSelected_iff hin]
  -- the two steps that bound the index do nothing which the third does not do as well
  constructor
  · rintro ⟨_, _, hindices, hvalues, hselected⟩
    exact ⟨fun i him => (hindices i him).2, fun w hw => mem_elementValues.mp (hvalues w hw),
      hselected⟩
  · rintro ⟨hindices, hvalues, hselected⟩
    refine ⟨fun i him => ?_, fun i him => ?_, fun i him => ?_, fun w hw => ?_, hselected⟩
    · obtain ⟨a, ha, _⟩ := hindices i him
      exact (elementAt?_bounds ha).1
    · obtain ⟨a, ha, _⟩ := hindices i him
      rw [← saturate_of_inRange (Domain.inRange_of_mem him)]
      exact saturate_mono (elementAt?_bounds ha).2
    · exact ⟨Domain.inRange_of_mem him, hindices i him⟩
    · exact mem_elementValues.mpr (hvalues w hw)

/-- An element which is known to hold is in balance. -/
theorem elementBalance_of_satisfied
    (h : elementEntailment F index array rhs first = .satisfied) :
    ElementBalance F index array rhs first := by
  obtain ⟨i, a, v, hi, ha, hva, hvr⟩ := elementEntailment_eq_satisfied.mp h
  have heq : F a = F rhs := by
    rw [(Domain.fixedValue?_eq_some_iff.mp hva).1, (Domain.fixedValue?_eq_some_iff.mp hvr).1]
  have hi' := Domain.fixedValue?_eq_some.mp hi
  refine ⟨fun j hj => ?_, fun w hw => ⟨i, hi'.1, a, ha, heq ▸ hw⟩, fun j b hj hb => ?_⟩
  · rw [hi'.2 j hj]
    exact ⟨a, ha, v, (Domain.fixedValue?_eq_some.mp hva).1, (Domain.fixedValue?_eq_some.mp hvr).1⟩
  · obtain rfl : i = j := Option.some.inj (hi.symm.trans hj)
    obtain rfl : a = b := Option.some.inj (ha.symm.trans hb)
    exact heq

/-- An element which is known to fail is not in balance. -/
theorem not_elementBalance_of_violated (hi : ∃ i, i ∈ F index)
    (h : elementEntailment F index array rhs first = .violated) :
    ¬ ElementBalance F index array rhs first := by
  intro hbal
  obtain ⟨i, hi⟩ := hi
  obtain ⟨a, ha, v, hva, hvr⟩ := hbal.indices i hi
  exact elementEntailment_eq_violated.mp h i hi a ha v hva hvr

/-- An element spares a smaller family in balance. -/
theorem spares_element (hle : G ≤ D.get)
    (hin : G.Inhabited (occurrences (.element index array rhs first)))
    (h : ElementBalance G index array rhs first) :
    Spares (propagateElement index array rhs first) D G := by
  have hi := hin index List.mem_cons_self
  have hr := hin rhs (by simp [occurrences])
  rw [propagateElement_eq]
  refine spares_inOrder (built_elementSteps index array rhs first) hle ?_
  simp only [elementSteps, List.forall_mem_cons, List.not_mem_nil, false_implies, implies_true,
    and_true, spares_reading_iff]
  refine ⟨fun E hE _ => ?_, fun E hE _ => ?_, fun E hE _ => ?_, fun E hE _ => ?_,
    fun E hE _ => ?_⟩
  · refine spares_narrow hE hi fun i him => ?_
    obtain ⟨a, ha, _⟩ := h.indices i him
    exact (elementAt?_bounds ha).1
  · refine spares_narrow hE hi fun i him => ?_
    obtain ⟨a, ha, _⟩ := h.indices i him
    rw [← saturate_of_inRange (Domain.inRange_of_mem him)]
    exact saturate_mono (elementAt?_bounds ha).2
  · refine spares_narrow hE hi fun i him => keeps_supported.mpr ⟨Domain.inRange_of_mem him, ?_⟩
    obtain ⟨a, ha, v, hva, hvr⟩ := h.indices i him
    exact ⟨a, ha, v, hE a v hva, hE rhs v hvr⟩
  · refine spares_narrow hE hr fun w hw => mem_elementValues.mpr ?_
    obtain ⟨i, him, a, ha, hwa⟩ := h.values w hw
    exact ⟨i, hE index i him, a, ha, hE a w hwa⟩
  · rw [joinSelected, spares_reading_iff]
    cases hsel : (E.get index).fixedValue?.bind (elementAt? array first) with
    | none => exact spares_done hE
    | some selected =>
        obtain ⟨i, hfix, hia⟩ := Option.bind_eq_some_iff.mp hsel
        have heq := h.selected i selected (Domain.fixedValue?_of_le (hE index) hi hfix) hia
        have hs := hin selected (by simp [occurrences, mem_of_elementAt? hia])
        refine spares_andThen (.narrow _ (List.mem_singleton_self selected))
          (spares_narrow hE hs fun v hv => hE rhs v (heq ▸ hv)) fun E' hE' _ => ?_
        exact spares_into (fun _ _ hde => hde) hE' hr heq.ge

end Element

end Constraint

end ConstraintSolver
