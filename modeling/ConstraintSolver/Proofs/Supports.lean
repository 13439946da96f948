import Mathlib.Logic.Function.Basic
import ConstraintSolver.Proofs.Building
import ConstraintSolver.Proofs.Sums

/-! # Supports — the values which primitive constraints leave

    A value is supported if it belongs to an assignment that is drawn from the
    domains and satisfies the constraint.  What a primitive constraint leaves
    once it has nothing more to prune is exactly what is supported
    (`primitive_stable_iff_supported`): no value could be removed on its account
    any more, and none has been missed.

    That supported values survive is the soundness of propagation.  For the
    other direction a balance has to be turned into assignments, kind by kind.
    With two variables it is enough to find a partner for every value
    (`supported_of_partners`).  An order takes the others at their greatest or at
    their least (`supported_ordering`), which works at the limits of the 32-bit range
    as well, where one of its bounds alone would not.  An element of an array which
    is not needed takes any value, so what has to be found for it is an index
    that selects another one (`supported_element`). -/

namespace ConstraintSolver

namespace Family

variable {F : Family} {vs : List Variable} {σ : Assignment}

/-- Every variable takes its least value. -/
def lowest (F : Family) : Assignment := fun v => (F v).lowerBound

/-- Every variable takes its greatest value. -/
def highest (F : Family) : Assignment := fun v => (F v).upperBound

/-- Least values are drawn from domains that have values. -/
theorem Inhabited.draws_lowest (h : F.Inhabited vs) : F.Draws vs F.lowest :=
  fun v hv => Domain.lowerBound_mem (h v hv)

/-- Greatest values are drawn from domains that have values. -/
theorem Inhabited.draws_highest (h : F.Inhabited vs) : F.Draws vs F.highest :=
  fun v hv => Domain.upperBound_mem (h v hv)

/-- Any variable may take another one of its values. -/
theorem Draws.update (h : F.Draws vs σ) {v : Variable} {a : Int} (ha : a ∈ F v) :
    F.Draws vs (Function.update σ v a) := by
  intro w hw
  by_cases hwv : w = v
  · subst hwv
    rw [Function.update_self]
    exact ha
  · rw [Function.update_of_ne hwv]
    exact h w hw

end Family

namespace Term

/-- A term is at its lower bound when every variable is. -/
theorem value_lowest (F : Family) (t : Term) : t.value F.lowest = t.lowerBound F := by
  cases t <;> rfl

/-- A term is at its upper bound when every variable is. -/
theorem value_highest (F : Family) (t : Term) : t.value F.highest = t.upperBound F := by
  cases t <;> rfl

theorem value_update_self (σ : Assignment) (v : Variable) (a : Int) :
    (Term.variable v).value (Function.update σ v a) = a := Function.update_self ..

/-- Another variable has no say in the value of a term. -/
theorem value_update_of_ne {σ : Assignment} {t : Term} {v : Variable} (a : Int)
    (h : t ≠ .variable v) : t.value (Function.update σ v a) = t.value σ := by
  cases t with
  | constant value => rfl
  | «variable» w =>
      have hwv : w ≠ v := fun heq => h (heq ▸ rfl)
      exact Function.update_of_ne hwv a σ

end Term

namespace Constraint

open Step

/-- The relations between variables, with distinct variables for arrays, and sums whose
    offset can be taken back. -/
inductive Primitive : Constraint → Prop
  | equality (x : Variable) (relation : EqualityRelation) (rhs : Term) :
      Primitive (.equality x relation rhs)
  | ordering (x : Variable) (relation : OrderRelation) (rhs : Term) :
      Primitive (.ordering x relation rhs)
  | sum (x z : Variable) {offset : Int} (hoff : InRange offset) (hne : offset ≠ minValue) :
      Primitive (.linear x offset .equal z)
  | difference (x : Variable) (offset : Int) (z : Variable) :
      Primitive (.linear x offset .notEqual z)
  | element {index rhs : Variable} {array : List Variable} (first : Int)
      (hdistinct : (index :: (array ++ [rhs])).Nodup) : Primitive (.element index array rhs first)

/-- Every value of every variable belongs to an assignment which satisfies the constraint. -/
def Supported (F : Family) (c : Constraint) : Prop :=
  ∀ v ∈ c.scope, ∀ a ∈ F v, ∃ σ, F.Draws c.scope σ ∧ σ v = a ∧ holds σ c = true

/-- A family supports a constraint if every value of every variable belongs to a satisfying
    assignment drawn from it. -/
theorem supported_iff {F : Family} {c : Constraint} :
    Supported F c ↔
      ∀ v ∈ occurrences c, ∀ a ∈ F v, ∃ σ,
        F.Draws (occurrences c) σ ∧ σ v = a ∧ holds σ c = true := by
  simp only [Supported, Family.Draws, Store.mem_scope]

/-! ## One or two variables -/

section Partners

variable {F : Family} {c : Constraint} {x y : Variable}

/-- Over one variable, all of whose values satisfy it, a constraint is supported. -/
theorem supported_of_single (hocc : ∀ u ∈ occurrences c, u = x)
    (h : ∀ σ, σ x ∈ F x → holds σ c = true) : Supported F c := by
  rw [supported_iff]
  intro v hv a ha
  obtain rfl := hocc v hv
  refine ⟨fun _ => a, fun u hu => ?_, rfl, h _ ha⟩
  rw [hocc u hu]
  exact ha

/-- It is enough that every value of one variable has a partner among those of the other. -/
theorem supported_of_partners {R : Int → Int → Prop} (hxy : x ≠ y)
    (hocc : ∀ u ∈ occurrences c, u = x ∨ u = y) (hR : ∀ σ, R (σ x) (σ y) → holds σ c = true)
    (hx : ∀ v ∈ F x, ∃ w ∈ F y, R v w) (hy : ∀ w ∈ F y, ∃ v ∈ F x, R v w) : Supported F c := by
  -- the assignment with two partners, whichever of them was given
  have hpair : ∀ v ∈ F x, ∀ w ∈ F y, R v w →
      ∃ σ, F.Draws (occurrences c) σ ∧ (σ x = v ∧ σ y = w) ∧ holds σ c = true := by
    intro v hv w hw hvw
    have hσx : Function.update (fun _ => w) x v x = v := Function.update_self ..
    have hσy : Function.update (fun _ => w) x v y = w := Function.update_of_ne hxy.symm ..
    refine ⟨Function.update (fun _ => w) x v, fun u hu => ?_, ⟨hσx, hσy⟩, hR _ ?_⟩
    · rcases hocc u hu with heq | heq
      · rw [heq, hσx]
        exact hv
      · rw [heq, hσy]
        exact hw
    · rw [hσx, hσy]
      exact hvw
  rw [supported_iff]
  intro u hu a ha
  rcases hocc u hu with rfl | rfl
  · obtain ⟨w, hw, haw⟩ := hx a ha
    obtain ⟨σ, hdraw, hσ, hholds⟩ := hpair a ha w hw haw
    exact ⟨σ, hdraw, hσ.1, hholds⟩
  · obtain ⟨v, hv, hva⟩ := hy a ha
    obtain ⟨σ, hdraw, hσ, hholds⟩ := hpair v hv a ha hva
    exact ⟨σ, hdraw, hσ.2, hholds⟩

/-- A variable which is kept apart from a value has another one. -/
theorem exists_apart {offset a : Int} (h : Apart F offset y x) (hy : ∃ v, v ∈ F y)
    (ha : a ∈ F x) : ∃ v ∈ F y, v + offset ≠ a := by
  by_contra hno
  obtain ⟨v, hv⟩ := hy
  have hall : ∀ w ∈ F y, w + offset = a := by
    intro w hw
    by_contra hne
    exact hno ⟨w, hw, hne⟩
  have hfix : (F y).fixedValue? = some v := by
    refine Domain.fixedValue?_eq_some.mpr ⟨hv, fun w hw => ?_⟩
    have hv' := hall v hv
    have hw' := hall w hw
    omega
  exact h v hfix ((hall v hv).symm ▸ ha)

/-- Two variables that are kept apart support every constraint which only asks for that. -/
theorem supported_of_apart {offset : Int} (hxy : x ≠ y)
    (hocc : ∀ u ∈ occurrences c, u = x ∨ u = y) (hin : F.Inhabited [x, y])
    (hR : ∀ σ, σ x + offset ≠ σ y → holds σ c = true) (hright : Apart F offset x y)
    (hleft : Apart F (-offset) y x) : Supported F c := by
  have hx := hin x List.mem_cons_self
  have hy := hin y (List.mem_cons_of_mem _ List.mem_cons_self)
  refine supported_of_partners (R := fun v w => v + offset ≠ w) hxy hocc hR (fun v hv => ?_)
    fun w hw => exists_apart hright hx hw
  obtain ⟨w, hw, hne⟩ := exists_apart hleft hy hv
  exact ⟨w, hw, by omega⟩

end Partners

/-! ## Equality and sums -/

section Pairs

variable {F : Family} {x z : Variable} {offset : Int} {relation : EqualityRelation}

/-- A balanced equality is supported. -/
theorem supported_equality {rhs : Term}
    (hin : F.Inhabited (occurrences (.equality x relation rhs)))
    (h : EqualityBalance F x relation rhs) : Supported F (.equality x relation rhs) := by
  cases rhs with
  | constant value =>
      refine supported_of_single (x := x) (fun u hu => List.mem_singleton.mp hu) fun σ hσ => ?_
      cases relation with
      | equal => exact beq_iff_eq.mpr ((Domain.fixedValue?_eq_some.mp h).2 _ hσ)
      | notEqual => exact bne_iff_ne.mpr fun heq : σ x = value => h (heq ▸ hσ)
  | «variable» y =>
      have hocc : ∀ u ∈ [x, y], u = x ∨ u = y := by simp
      cases relation with
      | equal =>
          rcases h with rfl | heq
          · exact supported_of_single (x := y) (by simp [occurrences]) fun σ _ => beq_self_eq_true _
          · by_cases hxy : x = y
            · subst hxy
              exact supported_of_single (x := x) (by simp [occurrences])
                fun σ _ => beq_self_eq_true _
            · exact supported_of_partners (R := fun v w => v = w) hxy hocc
                (fun σ hσ => beq_iff_eq.mpr hσ) (fun v hv => ⟨v, heq ▸ hv, rfl⟩)
                fun w hw => ⟨w, heq ▸ hw, rfl⟩
      | notEqual =>
          obtain ⟨hne, hright, hleft⟩ := h
          refine supported_of_apart (Ne.symm hne) hocc hin (fun σ hσ => ?_) hright
            (Int.neg_zero ▸ hleft)
          rw [Int.add_zero] at hσ
          exact bne_iff_ne.mpr hσ

/-- A balanced sum is supported. -/
theorem supported_sum (hoff : InRange offset) (hne : offset ≠ minValue)
    (h : LinearBalance F x offset z .equal) : Supported F (.linear x offset .equal z) := by
  by_cases hxz : x = z
  · subst hxz
    rw [LinearBalance, if_pos rfl] at h
    refine supported_of_single (x := x) (by simp [occurrences]) fun σ _ => beq_iff_eq.mpr ?_
    rw [h, Int.add_zero]
  · obtain ⟨hx, hz⟩ := paired_of_linearBalance hxz hoff hne h
    refine supported_of_partners (R := fun v w => v + offset = w) hxz (by simp [occurrences])
      (fun σ hσ => beq_iff_eq.mpr hσ) (fun v hv => ?_) fun w hw => ?_
    · obtain ⟨w, hw, hpair⟩ := hx v hv
      rw [paired_iff hoff hne (Domain.inRange_of_mem hv) (Domain.inRange_of_mem hw)] at hpair
      exact ⟨w, hw, hpair⟩
    · obtain ⟨v, hv, hpair⟩ := hz w hw
      rw [paired_iff hoff hne (Domain.inRange_of_mem hv) (Domain.inRange_of_mem hw)] at hpair
      exact ⟨v, hv, hpair⟩

/-- A balanced difference is supported. -/
theorem supported_difference (hin : F.Inhabited [x, z])
    (h : LinearBalance F x offset z .notEqual) : Supported F (.linear x offset .notEqual z) := by
  by_cases hxz : x = z
  · subst hxz
    rw [LinearBalance, if_pos rfl] at h
    refine supported_of_single (x := x) (by simp [occurrences]) fun σ _ => bne_iff_ne.mpr ?_
    omega
  · rw [LinearBalance, if_neg hxz] at h
    exact supported_of_apart hxz (by simp [occurrences]) hin (fun σ hσ => bne_iff_ne.mpr hσ) h.1 h.2

end Pairs

/-! ## Order -/

section Order

variable {F : Family} {x : Variable} {relation : OrderRelation} {rhs : Term}

/-- An order holds exactly if its normal form does. -/
theorem holds_ordering_iff (σ : Assignment) :
    holds σ (.ordering x relation rhs) = true ↔
      (relation.normalForm x rhs).smaller.value σ + (relation.normalForm x rhs).gap ≤
        (relation.normalForm x rhs).larger.value σ := by
  have hx : (Term.variable x).value σ = σ x := rfl
  cases relation <;>
    simp only [holds, OrderRelation.relates, OrderRelation.normalForm, hx, decide_eq_true_iff] <;>
    omega

/-- The variables of an order relation are its two sides. -/
theorem side_of_occurrence {v : Variable} (hv : v ∈ occurrences (.ordering x relation rhs)) :
    (relation.normalForm x rhs).smaller = .variable v ∨
      (relation.normalForm x rhs).larger = .variable v := by
  cases rhs with
  | constant value =>
      obtain rfl := List.mem_singleton.mp hv
      cases relation <;> simp [OrderRelation.normalForm]
  | «variable» y =>
      have hv' : v = x ∨ v = y := by simpa [occurrences] using hv
      rcases hv' with rfl | rfl <;> cases relation <;> simp [OrderRelation.normalForm]

/-- The bounds of a term are in the range, or those of a constant. -/
theorem inRange_bounds_or_eq {t : Term} (hin : ∀ y, t = .variable y → ∃ v, v ∈ F y) :
    (InRange (t.lowerBound F) ∧ InRange (t.upperBound F)) ∨ t.lowerBound F = t.upperBound F := by
  cases t with
  | constant value => exact Or.inr rfl
  | «variable» y =>
      have hy := hin y rfl
      exact Or.inl ⟨Domain.inRange_of_mem (Domain.lowerBound_mem hy),
        Domain.inRange_of_mem (Domain.upperBound_mem hy)⟩

/-- A balance orders the bounds without saturation: at a limit of the range, where one of its
    conditions says nothing, the other one does. -/
theorem OrderBalance.bounds {order : LessOrEqual} {S : List Variable} (h : OrderBalance F order)
    (hshape : OrderShape F order) (hover : order.Over S) (hin : F.Inhabited S)
    (hne : order.smaller ≠ order.larger) :
    order.smaller.upperBound F + order.gap ≤ order.larger.upperBound F ∧
      order.smaller.lowerBound F + order.gap ≤ order.larger.lowerBound F := by
  have hsmaller := inRange_bounds_or_eq fun y hy => hin y (hover y (.inl hy))
  have hlarger := inRange_bounds_or_eq fun y hy => hin y (hover y (.inr hy))
  rw [OrderBalance, if_neg hne] at h
  obtain ⟨hs, hl, hgap, hrange⟩ := hshape
  simp only [InRange, saturate, minValue, maxValue] at *
  omega

/-- A balanced order is supported. -/
theorem supported_ordering (hin : F.Inhabited (occurrences (.ordering x relation rhs)))
    (h : OrderBalance F (relation.normalForm x rhs)) : Supported F (.ordering x relation rhs) := by
  have hover := over_normalForm x relation rhs
  have hshape := orderShape hin
  have hholds : ∀ σ, holds σ (.ordering x relation rhs) = true ↔ _ := holds_ordering_iff
  rw [supported_iff]
  intro v hv a ha
  have hsides := side_of_occurrence hv
  generalize relation.normalForm x rhs = order at *
  by_cases hsame : order.smaller = order.larger
  · rw [OrderBalance, if_pos hsame] at h
    refine ⟨Function.update F.lowest v a, hin.draws_lowest.update ha, Function.update_self ..,
      (hholds _).mpr (Int.le_of_eq ?_)⟩
    rw [hsame, h, Int.add_zero]
  · obtain ⟨hupper, hlower⟩ := h.bounds hshape hover hin hsame
    rcases hsides with hside | hside
    · -- whatever is larger is as large as it can be
      have hother : order.larger ≠ .variable v := fun heq => hsame (hside.trans heq.symm)
      refine ⟨Function.update F.highest v a, hin.draws_highest.update ha, Function.update_self ..,
        (hholds _).mpr ?_⟩
      rw [Term.value_update_of_ne a hother, Term.value_highest, hside, Term.value_update_self]
      rw [hside] at hupper
      have hle : a ≤ (Term.variable v).upperBound F := Domain.le_upperBound ha
      omega
    · have hother : order.smaller ≠ .variable v := fun heq => hsame (heq.trans hside.symm)
      refine ⟨Function.update F.lowest v a, hin.draws_lowest.update ha, Function.update_self ..,
        (hholds _).mpr ?_⟩
      rw [Term.value_update_of_ne a hother, Term.value_lowest, hside, Term.value_update_self]
      rw [hside] at hlower
      have hle : (Term.variable v).lowerBound F ≤ a := Domain.lowerBound_le ha
      omega

end Order

/-! ## Elements of arrays -/

section Element

variable {F : Family} {index rhs a : Variable} {array : List Variable} {first i v : Int}

/-- An array of distinct variables has each of them at one index. -/
theorem index_eq_of_nodup (hnodup : array.Nodup) {j : Int}
    (hi : elementAt? array first i = some a) (hj : elementAt? array first j = some a) : i = j := by
  obtain ⟨k, rfl, hk⟩ := elementAt?_eq_some.mp hi
  obtain ⟨l, rfl, hl⟩ := elementAt?_eq_some.mp hj
  have hlt := (List.getElem?_eq_some_iff.mp hk).1
  rw [(List.getElem?_inj hlt hnodup).mp (hk.trans hl.symm)]

/-- Selects the element `a` by the index `i`, and gives it and the right-hand side the same value;
    the others are left as they are. -/
def selecting (τ : Assignment) (index rhs a : Variable) (i v : Int) : Assignment :=
  Function.update (Function.update (Function.update τ a v) rhs v) index i

section Selecting

variable {τ : Assignment}

theorem selecting_index : selecting τ index rhs a i v index = i := Function.update_self ..

theorem selecting_rhs (hri : rhs ≠ index) : selecting τ index rhs a i v rhs = v := by
  rw [selecting, Function.update_of_ne hri, Function.update_self]

theorem selecting_element (hai : a ≠ index) : selecting τ index rhs a i v a = v := by
  rw [selecting, Function.update_of_ne hai]
  by_cases har : a = rhs
  · rw [har, Function.update_self]
  · rw [Function.update_of_ne har, Function.update_self]

theorem selecting_other {b : Variable} (hbi : b ≠ index) (hbr : b ≠ rhs) (hba : b ≠ a) :
    selecting τ index rhs a i v b = τ b := by
  rw [selecting, Function.update_of_ne hbi, Function.update_of_ne hbr, Function.update_of_ne hba]

/-- What selects is drawn from the domains if the index and the common value are. -/
theorem draws_selecting {vs : List Variable} (hτ : F.Draws vs τ) (hi : i ∈ F index) (hva : v ∈ F a)
    (hvr : v ∈ F rhs) : F.Draws vs (selecting τ index rhs a i v) :=
  ((hτ.update hva).update hvr).update hi

/-- What selects satisfies the element. -/
theorem holds_selecting (hri : rhs ≠ index) (hai : a ≠ index)
    (ha : elementAt? array first i = some a) :
    holds (selecting τ index rhs a i v) (.element index array rhs first) = true := by
  rw [holds, selecting_index, ha, Option.any_some, selecting_element hai, selecting_rhs hri]
  exact beq_self_eq_true v

end Selecting

/-- If an element is not the only one that can be selected, another one can be. -/
theorem ElementBalance.other (h : ElementBalance F index array rhs first) (hnodup : array.Nodup)
    (hin : ∃ i, i ∈ F index)
    (hnot : ∀ i, (F index).fixedValue? = some i → elementAt? array first i ≠ some a) :
    ∃ i ∈ F index, ∃ b, elementAt? array first i = some b ∧ b ≠ a ∧ ∃ v ∈ F b, v ∈ F rhs := by
  by_contra hno
  have hall : ∀ j ∈ F index, elementAt? array first j = some a := by
    intro j hj
    obtain ⟨b, hb, hv⟩ := h.indices j hj
    by_cases hba : b = a
    · exact hba ▸ hb
    · exact absurd ⟨j, hj, b, hb, hba, hv⟩ hno
  obtain ⟨i, hi⟩ := hin
  have hfix : (F index).fixedValue? = some i :=
    Domain.fixedValue?_eq_some.mpr
      ⟨hi, fun j hj => index_eq_of_nodup hnodup (hall j hj) (hall i hi)⟩
  exact hnot i hfix (hall i hi)

/-- A balanced element over distinct variables is supported. -/
theorem supported_element (hdistinct : (index :: (array ++ [rhs])).Nodup)
    (hin : F.Inhabited (occurrences (.element index array rhs first)))
    (h : ElementBalance F index array rhs first) :
    Supported F (.element index array rhs first) := by
  obtain ⟨hindex, hrest⟩ := List.nodup_cons.mp hdistinct
  obtain ⟨hnodup, _, hapart⟩ := List.nodup_append.mp hrest
  have hri : rhs ≠ index := fun heq => hindex (heq ▸ List.mem_append_right _ List.mem_cons_self)
  have hai : ∀ b ∈ array, b ≠ index := fun b hb heq => hindex (heq ▸ List.mem_append_left _ hb)
  have hlow := hin.draws_lowest
  rw [supported_iff]
  intro u hu w hw
  have hcases : u = index ∨ u = rhs ∨ u ∈ array := by
    simp only [occurrences, List.mem_cons, List.mem_append, List.not_mem_nil, or_false] at hu
    exact hu.imp_right Or.symm
  rcases hcases with rfl | rfl | hmem
  · obtain ⟨a, ha, v, hva, hvr⟩ := h.indices w hw
    exact ⟨selecting F.lowest u rhs a w v, draws_selecting hlow hw hva hvr, selecting_index,
      holds_selecting hri (hai a (mem_of_elementAt? ha)) ha⟩
  · obtain ⟨i, hi, a, ha, hwa⟩ := h.values w hw
    exact ⟨selecting F.lowest index u a i w, draws_selecting hlow hi hwa hw, selecting_rhs hri,
      holds_selecting hri (hai a (mem_of_elementAt? ha)) ha⟩
  · have hui := hai u hmem
    by_cases honly : ∃ i, (F index).fixedValue? = some i ∧ elementAt? array first i = some u
    · -- the element is selected, and has the values of the right-hand side
      obtain ⟨i, hfix, hsel⟩ := honly
      have hi : i ∈ F index := (Domain.fixedValue?_eq_some.mp hfix).1
      have hwr : w ∈ F rhs := h.selected i u hfix hsel ▸ hw
      exact ⟨selecting F.lowest index rhs u i w, draws_selecting hlow hi hw hwr,
        selecting_element hui, holds_selecting hri hui hsel⟩
    · have hnot : ∀ i, (F index).fixedValue? = some i → elementAt? array first i ≠ some u :=
        fun i hfix hsel => honly ⟨i, hfix, hsel⟩
      obtain ⟨i, hi, a, ha, hau, v, hva, hvr⟩ := h.other hnodup (hin index List.mem_cons_self) hnot
      have hur : u ≠ rhs := hapart u hmem rhs List.mem_cons_self
      refine ⟨selecting (Function.update F.lowest u w) index rhs a i v,
        draws_selecting (hlow.update hw) hi hva hvr, ?_,
        holds_selecting hri (hai a (mem_of_elementAt? ha)) ha⟩
      rw [selecting_other hui hur hau.symm, Function.update_self]

end Element

/-! ## What is left -/

section Left

variable {c : Constraint} {D : Domains}

/-- A difference keeps the values of an assignment that satisfies it, whatever the offset. -/
theorem spares_difference {x z : Variable} {offset : Int} {σ : Assignment}
    (hdraw : Family.Draws D.get [x, z] σ) (hholds : holds σ (.linear x offset .notEqual z) = true) :
    Spares (propagate (.linear x offset .notEqual z)) D (Family.pointed D.get σ) := by
  have hne : σ x + offset ≠ σ z := bne_iff_ne.mp hholds
  rw [propagate]
  refine spares_linear (Family.pointed_le D.get σ) hdraw.pointed.inhabited ?_
  rw [LinearBalance]
  split
  · rename_i hxz
    subst hxz
    omega
  · refine ⟨fun v hv hm => ?_, fun w hw hm => ?_⟩
    · obtain ⟨hv, _⟩ := Domain.fixedValue?_eq_some.mp hv
      rw [Family.mem_pointed] at hv hm
      omega
    · obtain ⟨hw, _⟩ := Domain.fixedValue?_eq_some.mp hw
      rw [Family.mem_pointed] at hw hm
      omega

/-- Solutions are spared by primitive constraints, differences by any offset included. -/
theorem Primitive.spares (hprim : Primitive c) {σ : Assignment}
    (hdraw : Family.Draws D.get (occurrences c) σ) (hholds : holds σ c = true) :
    Spares (propagate c) D (Family.pointed D.get σ) := by
  have hin := hdraw.inhabited
  have hnone : ∀ k ∈ ([] : List Int), InRange (-k) := fun k hk => absurd hk List.not_mem_nil
  cases hprim with
  | equality | ordering | element =>
      exact spares_of_holds _ (.of_flags_eq_nil rfl hin hnone) hdraw hholds
  | difference => exact spares_difference hdraw hholds
  | @sum x z offset hoff hne =>
      refine spares_of_holds _ (.of_flags_eq_nil rfl hin fun k hk => ?_) hdraw hholds
      obtain rfl : k = offset := List.mem_singleton.mp hk
      simp only [InRange, minValue, maxValue] at *
      omega

/-- Propagation leaves supported values alone. -/
theorem Supported.stable (h : Supported D.get c) (hin : Family.Inhabited D.get (occurrences c))
    (hsome : ∃ v, v ∈ occurrences c)
    (hspares : ∀ σ, Family.Draws D.get (occurrences c) σ → holds σ c = true →
      Spares (propagate c) D (Family.pointed D.get σ)) : Stable c D := by
  rw [supported_iff] at h
  have hbuilt := built_propagate c
  refine ⟨?_, funext fun v => ?_⟩
  · obtain ⟨v, hv⟩ := hsome
    obtain ⟨a, ha⟩ := hin v hv
    obtain ⟨σ, hdraw, _, hholds⟩ := h v hv a ha
    exact (hspares σ hdraw hholds).1
  · by_cases hv : v ∈ occurrences c
    · refine le_antisymm (hbuilt.shrinks D v) fun a ha => ?_
      obtain ⟨σ, hdraw, hσ, hholds⟩ := h v hv a ha
      exact (hspares σ hdraw hholds).2 v a (Family.mem_pointed.mpr ⟨ha, hσ.symm⟩)
    · exact hbuilt.outside D v hv

/-- **PRIMITIVE CONSTRAINTS LEAVE SUPPORTED VALUES ONLY**, and all of them: there is nothing to
    prune if and only if every value that is left belongs to an assignment which
    satisfies the constraint. -/
theorem primitive_stable_iff_supported (hprim : Primitive c)
    (hin : Family.Inhabited D.get c.scope) : Stable c D ↔ Supported D.get c := by
  have hin' : Family.Inhabited D.get (occurrences c) :=
    hin.mono fun v hv => Store.mem_scope.mpr hv
  constructor
  · intro hstable
    rw [Stable] at hstable
    cases hprim with
    | equality x relation rhs =>
        rw [propagate, idle_equality_iff hin'] at hstable
        exact supported_equality hin' hstable
    | ordering x relation rhs =>
        rw [propagate, idle_order_iff (over_normalForm x relation rhs) hin'] at hstable
        exact supported_ordering hin' hstable
    | sum x z hoff hne =>
        rw [propagate, idle_linear_iff hin'] at hstable
        exact supported_sum hoff hne hstable
    | difference x offset z =>
        rw [propagate, idle_linear_iff hin'] at hstable
        exact supported_difference hin' hstable
    | element first hdistinct =>
        rw [propagate, idle_element_iff hin'] at hstable
        exact supported_element hdistinct hin' hstable
  · intro hsupported
    -- the supports are assignments, each of which is spared; a variable is needed to have one
    have hsome : ∃ v, v ∈ occurrences c := by
      cases hprim with
      | equality x relation rhs | ordering x relation rhs =>
          exact ⟨x, by cases rhs <;> simp [occurrences]⟩
      | sum | difference | element => exact ⟨_, List.mem_cons_self⟩
    exact hsupported.stable hin' hsome fun σ hdraw hholds => hprim.spares hdraw hholds

/-- An element of two variables at the largest indices there are, and what it may be equal to. -/
def lastElement : Constraint := .element ⟨0, 0⟩ [⟨0, 1⟩, ⟨0, 2⟩] ⟨0, 3⟩ (maxValue - 1)

/-- Domains among which the element has nothing to prune. -/
def lastChoice : Domains :=
  ⟨0, #[⟨.between (maxValue - 1) maxValue, 0⟩, ⟨.between minValue 1, 0⟩, ⟨.between 1 3, 0⟩,
    ⟨.between 0 2, 0⟩], [], []⟩

/-- The element at the largest indices has nothing to prune, and supports every value. -/
theorem lastElement_leaves_supported_values :
    (Primitive lastElement ∧ Family.Inhabited lastChoice.get lastElement.scope) ∧
      Stable lastElement lastChoice ∧ Supported lastChoice.get lastElement := by
  have hprim : Primitive lastElement := .element _ (by decide)
  have hin : Family.Inhabited lastChoice.get lastElement.scope := fun v hv =>
    Domain.inhabited_of_not_isEmpty (by revert v; decide +kernel)
  have hok : (propagate lastElement lastChoice).1 = .ok () := by decide +kernel
  have hsame : (propagate lastElement lastChoice).2 = lastChoice := by decide +kernel
  have hstable : Stable lastElement lastChoice := ⟨hok, congrArg Domains.get hsame⟩
  exact ⟨⟨hprim, hin⟩, hstable, (primitive_stable_iff_supported hprim hin).mp hstable⟩

end Left

end Constraint

end ConstraintSolver
