import ConstraintSolver.Proofs.Semantics
import ConstraintSolver.Proofs.Verdicts

/-! # Entailment — what the domains decide is true, and stays true

    Three facts make verdicts usable for propagation:

    * they depend on the variables of the tree only (`entailment_congr`);
    * once decided they are the same on all smaller families of non-empty
      domains, provided that every flag can still be 0 or 1
      (`entailment_settles`);
    * when every variable is fixed they are decided, and say whether the
      constraint holds (`entailment_of_fixed`).

    The second and the third together say that a decided verdict is true of
    every assignment drawn from the domains (`holds_of_satisfied`,
    `not_holds_of_violated`).  The verdict on the structural negation is the
    negated verdict (`entailment_negation`). -/

namespace ConstraintSolver

namespace Term

/-! ## Bounds of terms -/

variable {F G : Family} {t : Term}

/-- The only value of the term is the given one. -/
def BoundedBy (t : Term) (F : Family) (value : Int) : Prop :=
  t.lowerBound F = value ∧ t.upperBound F = value

/-- Smaller domains can only raise the lower bound of a term. -/
theorem lowerBound_le_of_le (hle : G ≤ F)
    (ht : ∀ y, t = .variable y → ∃ v, v ∈ G y) : t.lowerBound F ≤ t.lowerBound G := by
  cases t with
  | constant value => exact Int.le_refl _
  | «variable» y => exact Domain.lowerBound_le (hle y _ (Domain.lowerBound_mem (ht y rfl)))

/-- Smaller domains can only lower the upper bound of a term. -/
theorem upperBound_le_of_le (hle : G ≤ F)
    (ht : ∀ y, t = .variable y → ∃ v, v ∈ G y) : t.upperBound G ≤ t.upperBound F := by
  cases t with
  | constant value => exact Int.le_refl _
  | «variable» y => exact Domain.le_upperBound (hle y _ (Domain.upperBound_mem (ht y rfl)))

theorem lowerBound_le_upperBound
    (ht : ∀ y, t = .variable y → ∃ v, v ∈ G y) : t.lowerBound G ≤ t.upperBound G := by
  cases t with
  | constant value => exact Int.le_refl _
  | «variable» y => exact Domain.lowerBound_le (Domain.upperBound_mem (ht y rfl))

theorem lowerBound_congr (h : ∀ y, t = .variable y → F y = G y) :
    t.lowerBound F = t.lowerBound G := by
  cases t with
  | constant value => rfl
  | «variable» y => rw [lowerBound, lowerBound, h y rfl]

theorem upperBound_congr (h : ∀ y, t = .variable y → F y = G y) :
    t.upperBound F = t.upperBound G := by
  cases t with
  | constant value => rfl
  | «variable» y => rw [upperBound, upperBound, h y rfl]

end Term

namespace Constraint

open Entailment

/-! ## When the primitive verdicts are decided -/

section Primitive

variable {F : Family}

/-- A variable is known to equal a constant exactly if it is fixed at it. -/
theorem equalityEntailment_constant_eq_satisfied {x : Variable} {value : Int} :
    equalityEntailment F x (.constant value) = .satisfied ↔ (F x).fixedValue? = some value := by
  rw [Domain.fixedValue?_eq_some]
  simp only [equalityEntailment]
  split
  · rename_i h
    simp only [Bool.not_eq_true', ← Bool.not_eq_true, Domain.contains_iff] at h
    simp [h]
  · rename_i h
    simp only [Bool.not_eq_true', Bool.not_eq_false, Domain.contains_iff] at h
    split
    · rename_i hf
      obtain ⟨w, _, hw⟩ := Domain.isFixed_iff.mp hf
      have := hw value h
      simp only [true_iff]
      exact ⟨h, fun u hu => (hw u hu).trans this.symm⟩
    · rename_i hf
      simp only [reduceCtorEq, false_iff]
      exact fun hall => hf (Domain.isFixed_iff.mpr ⟨value, hall⟩)

/-- A variable is known to differ from a constant exactly if the constant is no value of it. -/
theorem equalityEntailment_constant_eq_violated {x : Variable} {value : Int} :
    equalityEntailment F x (.constant value) = .violated ↔ value ∉ F x := by
  rw [← Domain.contains_iff]
  simp only [equalityEntailment]
  split
  · simp_all
  · split <;> simp_all

/-- Two variables are known to be equal exactly if they are the same one, or fixed at one
    value. -/
theorem equalityEntailment_variable_eq_satisfied {x y : Variable} :
    equalityEntailment F x (.variable y) = .satisfied ↔
      y = x ∨ ∃ v, (F x).fixedValue? = some v ∧ (F y).fixedValue? = some v := by
  simp only [equalityEntailment]
  split
  · simp_all
  · rename_i hne
    simp only [hne, false_or]
    split
    · rename_i h
      simp only [reduceCtorEq, false_iff]
      rintro ⟨v, hx, hy⟩
      rw [Bool.not_eq_true', ← Bool.not_eq_true, Domain.overlaps_iff] at h
      exact h ⟨v, (Domain.fixedValue?_eq_some.mp hx).1, (Domain.fixedValue?_eq_some.mp hy).1⟩
    · rename_i h
      rw [Bool.not_eq_true', Bool.not_eq_false, Domain.overlaps_iff] at h
      obtain ⟨v, hx, hy⟩ := h
      split
      · rename_i hf
        simp only [Bool.and_eq_true, Domain.isFixed_iff] at hf
        obtain ⟨⟨u, _, hu⟩, w, _, hw⟩ := hf
        simp only [true_iff]
        refine ⟨v, Domain.fixedValue?_eq_some.mpr ⟨hx, ?_⟩, Domain.fixedValue?_eq_some.mpr ⟨hy, ?_⟩⟩
        · exact fun a ha => (hu a ha).trans (hu v hx).symm
        · exact fun a ha => (hw a ha).trans (hw v hy).symm
      · rename_i hf
        simp only [reduceCtorEq, false_iff]
        rintro ⟨w, hx', hy'⟩
        simp [Domain.isFixed, hx', hy'] at hf

/-- Two variables are known to differ exactly if they have no value in common. -/
theorem equalityEntailment_variable_eq_violated {x y : Variable} :
    equalityEntailment F x (.variable y) = .violated ↔ y ≠ x ∧ ∀ v ∈ F x, v ∉ F y := by
  have hov : (F x).overlaps (F y) = true ↔ ¬ ∀ v ∈ F x, v ∉ F y := by
    rw [Domain.overlaps_iff]
    simp
  simp only [equalityEntailment]
  split
  · simp_all
  · split
    · simp_all
    · split <;> simp_all

/-- An order is known to hold exactly if it does so for the largest smaller term and the smallest
    larger one. A term is in order with itself unless the order is strict. -/
theorem orderEntailment_eq_satisfied {order : LessOrEqual} :
    orderEntailment F order = .satisfied ↔
      if order.smaller = order.larger then order.gap = 0
      else order.smaller.upperBound F + order.gap ≤ order.larger.lowerBound F := by
  rw [orderEntailment]
  split
  · simp
  · split
    · simp_all
    · split <;> simp_all

/-- An order is known to fail exactly if it does so for the smallest smaller term and the largest
    larger one. -/
theorem orderEntailment_eq_violated {order : LessOrEqual} :
    orderEntailment F order = .violated ↔
      if order.smaller = order.larger then order.gap ≠ 0
      else ¬ order.smaller.upperBound F + order.gap ≤ order.larger.lowerBound F ∧
        order.larger.upperBound F < order.smaller.lowerBound F + order.gap := by
  rw [orderEntailment]
  split
  · simp
  · split
    · simp_all
    · split <;> simp_all

/-- A sum is known to hold exactly if both of its variables are fixed so. -/
theorem linearEntailment_eq_satisfied {x z : Variable} {offset : Int} :
    linearEntailment F x offset z = .satisfied ↔
      if x = z then offset = 0
      else ∃ v, (F x).fixedValue? = some v ∧ (F z).fixedValue? = some (v + offset) := by
  unfold linearEntailment
  split
  · simp
  · split
    · rename_i v w hx hz
      simp only [hx, hz, Option.some.injEq, exists_eq_left', ofBool_eq_satisfied, beq_iff_eq]
      exact eq_comm
    · rename_i hnone
      have hno : ¬ ∃ v, (F x).fixedValue? = some v ∧ (F z).fixedValue? = some (v + offset) := by
        rintro ⟨v, hx, hz⟩
        exact hnone v _ hx hz
      split <;> simp [hno]

/-- A sum is known to fail exactly if both of its variables are fixed otherwise, or if no value of
    the one is that of the other with the offset added. -/
theorem linearEntailment_eq_violated {x z : Variable} {offset : Int} :
    linearEntailment F x offset z = .violated ↔
      if x = z then offset ≠ 0
      else (∃ v w, (F x).fixedValue? = some v ∧ (F z).fixedValue? = some w ∧ v + offset ≠ w) ∨
        ((∀ v w, (F x).fixedValue? = some v → (F z).fixedValue? ≠ some w) ∧
          ∀ w ∈ F z, w ∉ (F x).shift offset) := by
  unfold linearEntailment
  split
  · simp
  · split
    · rename_i v w hx hz
      simp [hx, hz]
    · rename_i hnone
      have hno : ¬ ∃ v w, (F x).fixedValue? = some v ∧ (F z).fixedValue? = some w ∧
          v + offset ≠ w :=
        fun ⟨v, w, hx, hz, _⟩ => hnone v w hx hz
      simp only [hno, false_or]
      rw [show ((F x).shift offset).overlaps (F z) = (F z).overlaps ((F x).shift offset) from
        Bool.eq_iff_iff.mpr (by simp only [Domain.overlaps_iff, and_comm])]
      split
      · rename_i h
        rw [Bool.not_eq_true', Domain.overlaps_eq_false_iff] at h
        simp only [true_iff]
        exact ⟨fun v w hx hz => hnone v w hx hz, h⟩
      · rename_i h
        rw [Bool.not_eq_true', Domain.overlaps_eq_false_iff] at h
        simp only [reduceCtorEq, false_iff]
        exact fun hall => h hall.2

end Primitive

/-! ## Elements of arrays -/

/-- An index is supported exactly if what it selects has a value in common with the target. -/
theorem mem_supportedIndices {F : Family} {target : Domain} {array : List Variable}
    {first i : Int} :
    i ∈ supportedIndices F target array first ↔
      ∃ a, elementAt? array first i = some a ∧ (F a).overlaps target = true := by
  induction array generalizing first with
  | nil =>
      refine iff_of_false (by simp [supportedIndices]) ?_
      rintro ⟨a, ha, _⟩
      exact absurd (mem_of_elementAt? ha) (by simp)
  | cons b rest ih =>
      -- an index is that of the head, or one of the rest counted from the next number
      have hsplit : (∃ a, elementAt? (b :: rest) first i = some a ∧
            (F a).overlaps target = true) ↔
          (i = first ∧ (F b).overlaps target = true) ∨
            i ∈ supportedIndices F target rest (first + 1) := by
        simp only [elementAt?_cons, ih]
        constructor
        · rintro ⟨a, ⟨rfl, rfl⟩ | ha, hov⟩
          · exact Or.inl ⟨rfl, hov⟩
          · exact Or.inr ⟨a, ha, hov⟩
        · rintro (⟨rfl, hov⟩ | ⟨a, ha, hov⟩)
          · exact ⟨b, Or.inl ⟨rfl, rfl⟩, hov⟩
          · exact ⟨a, Or.inr ha, hov⟩
      rw [hsplit, supportedIndices]
      split
      · simp_all
      · simp_all

/-- An element is known to fail exactly if no value of the index is supported. -/
theorem elementEntailment_eq_violated {F : Family} {index rhs : Variable}
    {array : List Variable} {first : Int} :
    elementEntailment F index array rhs first = .violated ↔
      ∀ i ∈ F index, ∀ a, elementAt? array first i = some a → ∀ v ∈ F a, v ∉ F rhs := by
  have hany : (supportedIndices F (F rhs) array first).any (F index).contains = false ↔
      ∀ i ∈ F index, ∀ a, elementAt? array first i = some a → ∀ v ∈ F a, v ∉ F rhs := by
    simp only [List.any_eq_false, mem_supportedIndices, Domain.contains_iff]
    constructor
    · intro h i hi a ha
      rw [← Domain.overlaps_eq_false_iff, ← Bool.not_eq_true]
      exact fun hov => h i ⟨a, ha, hov⟩ hi
    · rintro h i ⟨a, ha, hov⟩ hi
      rw [Domain.overlaps_iff] at hov
      obtain ⟨v, hv, hr⟩ := hov
      exact h i hi a ha v hv hr
  rw [← hany]
  unfold elementEntailment
  cases hb : (supportedIndices F (F rhs) array first).any (F index).contains with
  | false => simp
  | true =>
      simp only [Bool.not_true, Bool.false_eq_true, if_false, reduceCtorEq, iff_false]
      split
      · simp
      · split <;> simp

/-- An element is known to hold exactly if the index is fixed, and what it selects is fixed at the
    value of the result. -/
theorem elementEntailment_eq_satisfied {F : Family} {index rhs : Variable}
    {array : List Variable} {first : Int} :
    elementEntailment F index array rhs first = .satisfied ↔
      ∃ i a v, (F index).fixedValue? = some i ∧ elementAt? array first i = some a ∧
        (F a).fixedValue? = some v ∧ (F rhs).fixedValue? = some v := by
  unfold elementEntailment
  split
  · rename_i h
    simp only [reduceCtorEq, false_iff]
    rintro ⟨i, a, v, hi, ha, hv, hr⟩
    rw [Bool.not_eq_true', List.any_eq_false] at h
    have hm : i ∈ supportedIndices F (F rhs) array first := by
      refine mem_supportedIndices.mpr ⟨a, ha, Domain.overlaps_iff.mpr ⟨v, ?_, ?_⟩⟩
      · exact (Domain.fixedValue?_eq_some.mp hv).1
      · exact (Domain.fixedValue?_eq_some.mp hr).1
    exact h i hm (Domain.contains_iff.mpr (Domain.fixedValue?_eq_some.mp hi).1)
  · split
    · rename_i h
      simp only [reduceCtorEq, false_iff]
      rintro ⟨i, a, v, hi, ha, _⟩
      simp [hi, ha] at h
    · rename_i a ha
      obtain ⟨i, hi, hia⟩ := Option.bind_eq_some_iff.mp ha
      constructor
      · intro h
        split at h
        · rename_i hfix
          simp only [Bool.and_eq_true, beq_iff_eq, Domain.isFixed,
            Option.isSome_iff_exists] at hfix
          obtain ⟨⟨⟨v, hv⟩, _⟩, heq⟩ := hfix
          exact ⟨i, a, v, hi, hia, hv, heq ▸ hv⟩
        · cases h
      · rintro ⟨i', a', v, hi', ha', hv, hr⟩
        obtain rfl : i = i' := Option.some.inj (hi.symm.trans hi')
        obtain rfl : a = a' := Option.some.inj (hia.symm.trans ha')
        simp [Domain.isFixed, hv, hr]

/-! ## Verdicts look at the variables of the tree -/

theorem supportedIndices_congr {F G : Family} {target : Domain} {array : List Variable}
    (h : ∀ a ∈ array, F a = G a) (first : Int) :
    supportedIndices F target array first = supportedIndices G target array first := by
  induction array generalizing first with
  | nil => rfl
  | cons a rest ih =>
      rw [supportedIndices, supportedIndices, h a List.mem_cons_self,
        ih (fun b hb => h b (List.mem_cons_of_mem _ hb))]

/-- The verdict on a tree depends on the domains of its variables only. -/
theorem entailment_congr {F G : Family} (c : Constraint)
    (h : ∀ v ∈ occurrences c, F v = G v) : entailment F c = entailment G c := by
  induction c using treeInduction with
  | equality x relation rhs =>
      cases rhs <;> simp_all [occurrences, entailment, equalityEntailment]
  | ordering x relation rhs =>
      cases relation <;> cases rhs <;>
        simp_all [occurrences, entailment, orderEntailment, OrderRelation.normalForm,
          Term.upperBound, Term.lowerBound]
  | linear x offset relation z => simp_all [occurrences, entailment, linearEntailment]
  | element index array rhs first =>
      have hi := h index List.mem_cons_self
      have hr := h rhs (by simp [occurrences])
      have ha : ∀ a ∈ array, F a = G a := fun a ha => h a (by simp [occurrences, ha])
      rw [entailment, entailment, elementEntailment, elementEntailment, hi, hr,
        supportedIndices_congr ha]
      cases hs : (G index).fixedValue?.bind (elementAt? array first) with
      | none => rfl
      | some selected =>
          obtain ⟨i, _, hsel⟩ := Option.bind_eq_some_iff.mp hs
          simp only [ha selected (mem_of_elementAt? hsel)]
  | reified body flag ih =>
      have hb := ih fun v hv => h v (List.mem_append_left _ hv)
      have hf := h flag (List.mem_append_right _ (List.mem_singleton_self _))
      rw [entailment, entailment, hb, hf]
  | and operands ih | or operands ih | xor operands ih =>
      have heq : operands.map (entailment F) = operands.map (entailment G) :=
        List.map_congr_left fun c hc => ih c hc fun v hv => h v (occurs_of_operand hc hv)
      rw [entailment, entailment, entailments_eq_map, entailments_eq_map, heq]
  | ifThen antecedent consequent iha ihc =>
      have ha := iha fun v hv => h v (List.mem_append_left _ hv)
      have hc := ihc fun v hv => h v (List.mem_append_right _ hv)
      rw [entailment, entailment, ha, hc]
  | not operand ih => rw [entailment, entailment, ih h]

/-! ## Decided verdicts stay -/

/-- Every flag of the tree can be 0 or 1. -/
def FlagsOpen (F : Family) (c : Constraint) : Prop := ∀ b ∈ flags c, 0 ∈ F b ∨ 1 ∈ F b

/-- The flags of an operand are among those of the list. -/
theorem FlagsOpen.operand {F : Family} {cs : List Constraint} {c : Constraint}
    (h : ∀ b ∈ flagsAll cs, 0 ∈ F b ∨ 1 ∈ F b) (hc : c ∈ cs) : FlagsOpen F c :=
  fun b hb => h b (flag_of_operand hc hb)

/-- Flags which have values, none but 0 and 1, are open. -/
theorem FlagsOpen.of_boolean {F : Family} {c : Constraint} (hin : F.Inhabited (flags c))
    (hbool : ∀ b ∈ flags c, ∀ x ∈ F b, x = 0 ∨ x = 1) : FlagsOpen F c := by
  intro b hb
  obtain ⟨x, hx⟩ := hin b hb
  rcases hbool b hb x hx with rfl | rfl
  · exact Or.inl hx
  · exact Or.inr hx

section Later

variable {F G : Family}

/-- What is known of an equality is still known on smaller domains. -/
theorem settles_equality (x : Variable) (rhs : Term) (hle : G ≤ F) (hx : ∃ v, v ∈ G x)
    (hrhs : ∀ y, rhs = .variable y → ∃ v, v ∈ G y) :
    Settles (equalityEntailment G x rhs) (equalityEntailment F x rhs) := by
  cases rhs with
  | constant value =>
      refine Settles.of_decided ?_ ?_
      · simp only [equalityEntailment_constant_eq_satisfied]
        exact Domain.fixedValue?_of_le (hle x) hx
      · simp only [equalityEntailment_constant_eq_violated]
        exact fun h hv => h (hle x value hv)
  | «variable» y =>
      have hy := hrhs y rfl
      refine Settles.of_decided ?_ ?_
      · simp only [equalityEntailment_variable_eq_satisfied]
        rintro (rfl | ⟨v, hvx, hvy⟩)
        · exact Or.inl rfl
        · exact Or.inr ⟨v, Domain.fixedValue?_of_le (hle x) hx hvx,
            Domain.fixedValue?_of_le (hle y) hy hvy⟩
      · simp only [equalityEntailment_variable_eq_violated]
        rintro ⟨hne, hall⟩
        exact ⟨hne, fun v hv hv' => hall v (hle x v hv) (hle y v hv')⟩

/-- What is known of an order is still known on smaller domains. -/
theorem settles_order (order : LessOrEqual) (hle : G ≤ F)
    (hs : ∀ y, order.smaller = .variable y → ∃ v, v ∈ G y)
    (hl : ∀ y, order.larger = .variable y → ∃ v, v ∈ G y) :
    Settles (orderEntailment G order) (orderEntailment F order) := by
  refine Settles.of_decided ?_ ?_
  · simp only [orderEntailment_eq_satisfied]
    split
    · exact id
    · have := Term.upperBound_le_of_le hle hs
      have := Term.lowerBound_le_of_le hle hl
      omega
  · simp only [orderEntailment_eq_violated]
    split
    · exact id
    · have := Term.upperBound_le_of_le hle hl
      have := Term.lowerBound_le_of_le hle hs
      have := Term.lowerBound_le_upperBound hs
      have := Term.lowerBound_le_upperBound hl
      omega

/-- What is known of a sum is still known on smaller domains. -/
theorem settles_linear (x : Variable) (offset : Int) (z : Variable) (hle : G ≤ F)
    (hx : ∃ v, v ∈ G x) (hz : ∃ v, v ∈ G z) :
    Settles (linearEntailment G x offset z) (linearEntailment F x offset z) := by
  refine Settles.of_decided ?_ ?_
  · simp only [linearEntailment_eq_satisfied]
    split
    · exact id
    · rintro ⟨v, hvx, hvz⟩
      exact ⟨v, Domain.fixedValue?_of_le (hle x) hx hvx, Domain.fixedValue?_of_le (hle z) hz hvz⟩
  · simp only [linearEntailment_eq_violated]
    split
    · exact id
    · rintro (⟨v, w, hvx, hwz, hne⟩ | ⟨_, hall⟩)
      · exact Or.inl ⟨v, w, Domain.fixedValue?_of_le (hle x) hx hvx,
          Domain.fixedValue?_of_le (hle z) hz hwz, hne⟩
      · have hall' : ∀ w ∈ G z, w ∉ (G x).shift offset :=
          fun w hw hw' => hall w (hle z w hw) (Domain.shift_le_shift (hle x) offset w hw')
        by_cases hfix : ∃ v w, (G x).fixedValue? = some v ∧ (G z).fixedValue? = some w
        · -- both became fixed: the sum is not the value of `z`, or it would be a shifted value
          obtain ⟨v, w, hv, hw⟩ := hfix
          refine Or.inl ⟨v, w, hv, hw, fun heq => ?_⟩
          have hwG := (Domain.fixedValue?_eq_some.mp hw).1
          refine hall' w hwG (Domain.mem_shift.mpr ⟨v, (Domain.fixedValue?_eq_some.mp hv).1, ?_⟩)
          rw [heq, saturate_of_inRange (Domain.inRange_of_mem hwG)]
        · exact Or.inr ⟨fun v w hv hw => hfix ⟨v, w, hv, hw⟩, hall'⟩

/-- What is known of an element is still known on smaller domains. -/
theorem settles_element (index : Variable) (array : List Variable) (rhs : Variable) (first : Int)
    (hle : G ≤ F) (hin : G.Inhabited (occurrences (.element index array rhs first))) :
    Settles (elementEntailment G index array rhs first)
      (elementEntailment F index array rhs first) := by
  refine Settles.of_decided ?_ ?_
  · simp only [elementEntailment_eq_satisfied]
    rintro ⟨i, a, v, hi, ha, hva, hvr⟩
    have hina := hin a (by simp [occurrences, mem_of_elementAt? ha])
    exact ⟨i, a, v, Domain.fixedValue?_of_le (hle index) (hin index List.mem_cons_self) hi, ha,
      Domain.fixedValue?_of_le (hle a) hina hva,
      Domain.fixedValue?_of_le (hle rhs) (hin rhs (by simp [occurrences])) hvr⟩
  · simp only [elementEntailment_eq_violated]
    intro hall i hi a ha v hv hv'
    exact hall i (hle index i hi) a ha v (hle a v hv) (hle rhs v hv')

/-- What is known of a reification is still known on smaller domains, if that of its body is. -/
theorem settles_reified {flag flag' : Domain} {body body' : Entailment} (hle : flag' ≤ flag)
    (hopen : 0 ∈ flag' ∨ 1 ∈ flag') (hbody : Settles body' body) :
    Settles (reifiedEntailment flag' body') (reifiedEntailment flag body) := by
  have h0 : flag'.contains 0 = true → flag.contains 0 = true := by
    simpa only [Domain.contains_iff] using hle 0
  have h1 : flag'.contains 1 = true → flag.contains 1 = true := by
    simpa only [Domain.contains_iff] using hle 1
  rw [← Domain.contains_iff, ← Domain.contains_iff] at hopen
  unfold reifiedEntailment
  cases c0 : flag.contains 0 <;> cases c1 : flag.contains 1 <;>
    cases c0' : flag'.contains 0 <;> cases c1' : flag'.contains 1 <;> simp_all
  · exact hbody.negated
  · exact fun h => absurd rfl h
  · exact fun h => absurd rfl h
  · exact fun h => absurd rfl h

end Later

/-- **DECIDED VERDICTS STAY** when values are removed, as long as every
    variable has a value and every flag can be 0 or 1. -/
theorem entailment_settles {F G : Family} (c : Constraint) (hle : G ≤ F)
    (hin : G.Inhabited (occurrences c)) (hopen : FlagsOpen G c) :
    Settles (entailment G c) (entailment F c) := by
  induction c using treeInduction with
  | equality x relation rhs =>
      refine Settles.under (settles_equality x rhs hle (hin x ?_) fun y hy => hin y ?_) relation
      · cases rhs <;> simp [occurrences]
      · simp [hy, occurrences]
  | ordering x relation rhs =>
      refine settles_order _ hle (fun y hy => hin y ?_) (fun y hy => hin y ?_) <;>
        cases relation <;> cases rhs <;> simp_all [OrderRelation.normalForm, occurrences]
  | linear x offset relation z =>
      exact (settles_linear x offset z hle (hin x (by simp [occurrences]))
        (hin z (by simp [occurrences]))).under relation
  | element index array rhs first => exact settles_element index array rhs first hle hin
  | reified body flag ih =>
      -- the flag keeps 0 or 1, so it cannot be decided against both
      have hbody := ih (hin.mono fun v hv => List.mem_append_left _ hv)
        fun b hb => hopen b (List.mem_append_left _ hb)
      exact settles_reified (hle flag)
        (hopen flag (List.mem_append_right _ (List.mem_singleton_self _))) hbody
  | and operands ih =>
      rw [entailment, entailment, entailments_eq_map, entailments_eq_map]
      exact settles_all fun c hc => ih c hc (hin.mono fun v hv => occurs_of_operand hc hv)
        (FlagsOpen.operand hopen hc)
  | or operands ih =>
      rw [entailment, entailment, entailments_eq_map, entailments_eq_map]
      exact settles_any fun c hc => ih c hc (hin.mono fun v hv => occurs_of_operand hc hv)
        (FlagsOpen.operand hopen hc)
  | xor operands ih =>
      rw [entailment, entailment, entailments_eq_map, entailments_eq_map]
      exact settles_exactlyOne fun c hc => ih c hc (hin.mono fun v hv => occurs_of_operand hc hv)
        (FlagsOpen.operand hopen hc)
  | ifThen antecedent consequent iha ihc =>
      exact Settles.implies
        (iha (hin.mono fun v hv => List.mem_append_left _ hv)
          fun b hb => hopen b (List.mem_append_left _ hb))
        (ihc (hin.mono fun v hv => List.mem_append_right _ hv)
          fun b hb => hopen b (List.mem_append_right _ hb))
  | not operand ih => exact (ih hin hopen).negated

/-! ## Verdicts on fixed variables -/

theorem exactlyOne_map_ofBool (bs : List Bool) :
    exactlyOne (bs.map ofBool) = ofBool (bs.count true == 1) := by
  have hsat : (bs.map ofBool).count .satisfied = bs.count true := by
    rw [List.count_eq_countP, List.count_eq_countP, List.countP_map]
    refine List.countP_congr fun b _ => ?_
    cases b <;> simp
  have hunk : (bs.map ofBool).count .unknown = 0 := by
    simp [List.count_eq_zero]
  cases hc : bs.count true == 1 with
  | true => simpa [exactlyOne_eq_satisfied, ofBool, hsat, hunk] using hc
  | false =>
      have hne : bs.count true ≠ 1 := by simpa using hc
      refine exactlyOne_eq_violated.mpr ?_
      rw [hsat, hunk]
      omega

/-- An order of fixed terms is decided by their values. -/
theorem orderEntailment_of_fixed {F : Family} {smaller larger : Term} {a b : Int} (gap : Int)
    (ha : smaller.BoundedBy F a) (hb : larger.BoundedBy F b) (hgap : 0 ≤ gap) :
    orderEntailment F ⟨smaller, larger, gap⟩ = ofBool (decide (a + gap ≤ b)) := by
  cases hd : decide (a + gap ≤ b) with
  | true =>
      -- both ends of each side are the same, so the verdict compares the two values
      have hle : a + gap ≤ b := of_decide_eq_true hd
      refine orderEntailment_eq_satisfied.mpr ?_
      simp only [ha.2, hb.1]
      split
      · rename_i heq
        have : a = b := by rw [← ha.1, heq, hb.1]
        omega
      · exact hle
  | false =>
      have hlt : ¬ a + gap ≤ b := of_decide_eq_false hd
      refine orderEntailment_eq_violated.mpr ?_
      simp only [ha.1, ha.2, hb.1, hb.2]
      split
      · rename_i heq
        have : a = b := by rw [← ha.1, heq, hb.1]
        omega
      · exact ⟨hlt, by omega⟩

theorem all_map_ofBool (bs : List Bool) : all (bs.map ofBool) = ofBool (bs.all id) := by
  cases hb : bs.all id with
  | true =>
      refine all_eq_satisfied.mpr fun v hv => ?_
      obtain ⟨b, hbm, rfl⟩ := List.mem_map.mp hv
      exact ofBool_eq_satisfied.mpr (List.all_eq_true.mp hb b hbm)
  | false =>
      obtain ⟨b, hbm, hfalse⟩ := List.all_eq_false.mp hb
      refine all_eq_violated.mpr (List.mem_map.mpr ⟨b, hbm, ?_⟩)
      exact ofBool_eq_violated.mpr (Bool.eq_false_iff.mpr hfalse)

theorem any_map_ofBool (bs : List Bool) : any (bs.map ofBool) = ofBool (bs.any id) := by
  cases hb : bs.any id with
  | true =>
      obtain ⟨b, hbm, htrue⟩ := List.any_eq_true.mp hb
      exact any_eq_satisfied.mpr (List.mem_map.mpr ⟨b, hbm, ofBool_eq_satisfied.mpr htrue⟩)
  | false =>
      refine any_eq_violated.mpr fun v hv => ?_
      obtain ⟨b, hbm, rfl⟩ := List.mem_map.mp hv
      exact ofBool_eq_violated.mpr (Bool.eq_false_iff.mpr (List.any_eq_false.mp hb b hbm))

section Fixed

variable {F : Family} {σ : Assignment}

/-- An equality of fixed terms is decided by their values. -/
theorem equalityEntailment_of_fixed {x : Variable} {relation : EqualityRelation} {rhs : Term}
    (h : ∀ v ∈ occurrences (.equality x relation rhs), (F v).fixedValue? = some (σ v)) :
    equalityEntailment F x rhs = ofBool (σ x == rhs.value σ) := by
  have hmem : ∀ v ∈ occurrences (.equality x relation rhs), ∀ w, w ∈ F v ↔ w = σ v :=
    fun v hv => Domain.mem_iff_of_fixed (h v hv)
  cases hb : σ x == rhs.value σ <;> cases rhs
  all_goals
    simp_all [ofBool, occurrences, Term.value, equalityEntailment_constant_eq_violated,
      equalityEntailment_variable_eq_violated, equalityEntailment_constant_eq_satisfied,
      equalityEntailment_variable_eq_satisfied]
  all_goals
    rintro rfl
    exact hb rfl

/-- A sum of fixed variables is decided by their values. -/
theorem linearEntailment_of_fixed {x z : Variable} (offset : Int)
    (hx : (F x).fixedValue? = some (σ x)) (hz : (F z).fixedValue? = some (σ z)) :
    linearEntailment F x offset z = ofBool (σ x + offset == σ z) := by
  rw [linearEntailment]
  split
  · rename_i hxz
    rw [hxz]
    congr 1
    rw [Bool.eq_iff_iff, beq_iff_eq, beq_iff_eq]
    omega
  · simp only [hx, hz]

/-- An element is decided by the values of its variables once they are fixed. -/
theorem elementEntailment_of_fixed {index rhs : Variable} {array : List Variable} {first : Int}
    (h : ∀ v ∈ occurrences (.element index array rhs first), (F v).fixedValue? = some (σ v)) :
    entailment F (.element index array rhs first) =
      ofBool (holds σ (.element index array rhs first)) := by
  have hi := h index List.mem_cons_self
  have hr := h rhs (by simp [occurrences])
  -- the index has one value, so one element of the array matters or none
  rw [entailment, holds]
  cases ha : elementAt? array first (σ index) with
  | none =>
      refine elementEntailment_eq_violated.mpr fun i him a hia => ?_
      rw [(Domain.mem_iff_of_fixed hi i).mp him, ha] at hia
      cases hia
  | some selected =>
      have hs := h selected (by simp [occurrences, mem_of_elementAt? ha])
      cases hb : σ selected == σ rhs with
      | true =>
          rw [Option.any_some, hb]
          exact elementEntailment_eq_satisfied.mpr
            ⟨σ index, selected, σ selected, hi, ha, hs, by rw [hr, eq_of_beq hb]⟩
      | false =>
          rw [Option.any_some, hb]
          refine elementEntailment_eq_violated.mpr fun i him a hia v hv hv' => ?_
          rw [(Domain.mem_iff_of_fixed hi i).mp him, ha] at hia
          cases hia
          rw [Domain.fixedValue?_eq_some] at hs hr
          rw [← hs.2 v hv, ← hr.2 v hv'] at hb
          simp at hb

/-- A reification with a fixed flag is decided by the flag and the truth of its body. -/
theorem reifiedEntailment_of_fixed {flag : Variable} (holding : Bool)
    (hflag : (F flag).fixedValue? = some (σ flag)) :
    reifiedEntailment (F flag) (ofBool holding) =
      ofBool ((σ flag == 1 && holding) || (σ flag == 0 && !holding)) := by
  have hf := Domain.mem_iff_of_fixed hflag
  have h0 : (F flag).contains 0 = (σ flag == 0) := by
    rw [Bool.eq_iff_iff, Domain.contains_iff, hf, beq_iff_eq, eq_comm]
  have h1 : (F flag).contains 1 = (σ flag == 1) := by
    rw [Bool.eq_iff_iff, Domain.contains_iff, hf, beq_iff_eq, eq_comm]
  rw [reifiedEntailment, h0, h1]
  cases e0 : σ flag == 0 <;> cases e1 : σ flag == 1
  · rfl
  · simp
  · simp [ofBool_not]
  · simp_all

/-- The verdicts on operands with fixed variables are their truth values, if each one is. -/
theorem entailments_of_fixed {cs : List Constraint}
    (h : ∀ v ∈ occurrencesAll cs, (F v).fixedValue? = some (σ v))
    (ih : ∀ c ∈ cs, (∀ v ∈ occurrences c, (F v).fixedValue? = some (σ v)) →
      entailment F c = ofBool (holds σ c)) :
    entailments F cs = (truths σ cs).map ofBool := by
  rw [entailments_eq_map, truths_eq_map, List.map_map]
  exact List.map_congr_left fun c hc => ih c hc fun v hv => h v (occurs_of_operand hc hv)

/-- **EVALUATION**: once every variable is fixed, the verdict says whether the
    constraint holds of the values. -/
theorem entailment_of_fixed (c : Constraint)
    (h : ∀ v ∈ occurrences c, (F v).fixedValue? = some (σ v)) :
    entailment F c = ofBool (holds σ c) := by
  induction c using treeInduction with
  | equality x relation rhs =>
      rw [entailment, equalityEntailment_of_fixed h, holds]
      cases relation
      · rfl
      · exact (ofBool_not _).symm
  -- an order is decided by the bounds, which coincide
  | ordering x relation rhs =>
      have hx : (Term.variable x).BoundedBy F (σ x) :=
        Domain.bounds_of_fixed (h x (by cases rhs <;> simp [occurrences]))
      have hrhs : rhs.BoundedBy F (rhs.value σ) := by
        cases rhs with
        | constant value => exact ⟨rfl, rfl⟩
        | «variable» y => exact Domain.bounds_of_fixed (h y (by simp [occurrences]))
      rw [entailment, holds]
      cases relation with
      | less => exact orderEntailment_of_fixed 1 hx hrhs (by omega)
      | lessOrEqual =>
          refine (orderEntailment_of_fixed 0 hx hrhs (by omega)).trans ?_
          rw [Int.add_zero]
          rfl
      | greater => exact orderEntailment_of_fixed 1 hrhs hx (by omega)
      | greaterOrEqual =>
          refine (orderEntailment_of_fixed 0 hrhs hx (by omega)).trans ?_
          rw [Int.add_zero]
          rfl
  | linear x offset relation z =>
      have hx := h x (by simp [occurrences])
      have hz := h z (by simp [occurrences])
      rw [entailment, linearEntailment_of_fixed offset hx hz, holds]
      cases relation
      · rfl
      · exact (ofBool_not _).symm
  | element index array rhs first => exact elementEntailment_of_fixed h
  | reified body flag ih =>
      have hflag := h flag (List.mem_append_right _ (List.mem_singleton_self _))
      rw [entailment, ih fun v hv => h v (List.mem_append_left _ hv), holds,
        reifiedEntailment_of_fixed _ hflag]
  | and operands ih =>
      rw [entailment, holds, entailments_of_fixed h ih, all_map_ofBool]
  | or operands ih =>
      rw [entailment, holds, entailments_of_fixed h ih, any_map_ofBool]
  | xor operands ih =>
      rw [entailment, holds, entailments_of_fixed h ih, exactlyOne_map_ofBool]
  | ifThen antecedent consequent iha ihc =>
      have ha := iha fun v hv => h v (List.mem_append_left _ hv)
      have hc := ihc fun v hv => h v (List.mem_append_right _ hv)
      rw [entailment, ha, hc, holds]
      cases holds σ antecedent <;> cases holds σ consequent <;> rfl
  | not operand ih => rw [entailment, ih h, holds, ofBool_not]

end Fixed

/-! ## Verdicts are true -/

/-- A decided verdict is what evaluation says about every assignment drawn
    from the domains. -/
theorem entailment_of_draws {F : Family} {σ : Assignment} (c : Constraint)
    (hdraw : F.Draws (occurrences c) σ) (hflags : ∀ b ∈ flags c, σ b = 0 ∨ σ b = 1)
    (hdecided : entailment F c ≠ .unknown) : entailment F c = ofBool (holds σ c) := by
  have hpoint : entailment (F.pointed σ) c = ofBool (holds σ c) :=
    entailment_of_fixed c fun v hv => Family.fixedValue?_pointed (hdraw v hv)
  have hopen : FlagsOpen (F.pointed σ) c := by
    intro b hb
    have hb' := hdraw.pointed b (flags_subset_occurrences c b hb)
    rcases hflags b hb with hf | hf
    · exact Or.inl (hf ▸ hb')
    · exact Or.inr (hf ▸ hb')
  -- on the values alone the verdict is the same, since it was decided before
  rw [← hpoint]
  exact (entailment_settles c (F.pointed_le σ) hdraw.pointed.inhabited hopen hdecided).symm

/-- **KNOWN TO HOLD**, a tree is true of every assignment drawn from the domains. -/
theorem holds_of_satisfied {F : Family} {σ : Assignment} {c : Constraint}
    (hdraw : F.Draws (occurrences c) σ) (hflags : ∀ b ∈ flags c, σ b = 0 ∨ σ b = 1)
    (h : entailment F c = .satisfied) : holds σ c = true := by
  have := entailment_of_draws c hdraw hflags (by simp [h])
  rwa [h, eq_comm, ofBool_eq_satisfied] at this

/-- **KNOWN TO FAIL**, a tree is false of every assignment drawn from the domains. -/
theorem not_holds_of_violated {F : Family} {σ : Assignment} {c : Constraint}
    (hdraw : F.Draws (occurrences c) σ) (hflags : ∀ b ∈ flags c, σ b = 0 ∨ σ b = 1)
    (h : entailment F c = .violated) : holds σ c = false := by
  have := entailment_of_draws c hdraw hflags (by simp [h])
  rwa [h, eq_comm, ofBool_eq_violated] at this

/-! ## Verdicts on negations -/

/-- The order the other way around, with the other gap, has the opposite verdict. -/
theorem orderEntailment_flipped {F : Family} {smaller larger : Term} {gap gap' : Int}
    (hgap : gap + gap' = 1) (h0 : gap = 0 ∨ gap = 1)
    (hs : smaller.lowerBound F ≤ smaller.upperBound F)
    (hl : larger.lowerBound F ≤ larger.upperBound F) :
    orderEntailment F ⟨larger, smaller, gap'⟩ =
      (orderEntailment F ⟨smaller, larger, gap⟩).negated := by
  have hsat : orderEntailment F ⟨larger, smaller, gap'⟩ = .satisfied ↔
      orderEntailment F ⟨smaller, larger, gap⟩ = .violated := by
    rw [orderEntailment_eq_satisfied, orderEntailment_eq_violated]
    simp only [@eq_comm _ larger]
    split <;> omega
  have hvio : orderEntailment F ⟨larger, smaller, gap'⟩ = .violated ↔
      orderEntailment F ⟨smaller, larger, gap⟩ = .satisfied := by
    rw [orderEntailment_eq_satisfied, orderEntailment_eq_violated]
    simp only [@eq_comm _ larger]
    split <;> omega
  -- a third verdict is excluded on both sides at once
  cases h : orderEntailment F ⟨smaller, larger, gap⟩ with
  | satisfied => exact hvio.mpr h
  | violated => exact hsat.mpr h
  | unknown =>
      cases h' : orderEntailment F ⟨larger, smaller, gap'⟩ with
      | unknown => rfl
      | satisfied => simp [hsat.mp h'] at h
      | violated => simp [hvio.mp h'] at h

/-- Negated operands have the opposite verdicts, if each one has. -/
theorem entailments_negations {F : Family} {cs : List Constraint}
    (h : ∀ c ∈ cs, entailment F (negation c) = (entailment F c).negated) :
    entailments F (negations cs) = (entailments F cs).map negated := by
  rw [entailments_eq_map, entailments_eq_map, negations_eq_map, List.map_map, List.map_map]
  exact List.map_congr_left h

/-- **VERDICTS COMMUTE WITH NEGATION**, as long as every variable has a value
    and every flag can be 0 or 1. -/
theorem entailment_negation {F : Family} (c : Constraint) (hin : F.Inhabited (occurrences c))
    (hopen : FlagsOpen F c) : entailment F (negation c) = (entailment F c).negated := by
  induction c using treeInduction with
  | equality x relation rhs => exact under_negated relation _
  | ordering x relation rhs =>
      have hx : (Term.variable x).lowerBound F ≤ (Term.variable x).upperBound F := by
        refine Term.lowerBound_le_upperBound fun y hy => hin y ?_
        cases hy
        cases rhs <;> simp [occurrences]
      have hrhs : rhs.lowerBound F ≤ rhs.upperBound F :=
        Term.lowerBound_le_upperBound fun y hy => hin y (by simp [hy, occurrences])
      cases relation with
      | less | lessOrEqual => exact orderEntailment_flipped (by omega) (by omega) hx hrhs
      | greater | greaterOrEqual => exact orderEntailment_flipped (by omega) (by omega) hrhs hx
  | linear x offset relation z => exact under_negated relation _
  | element => rfl
  | reified body flag ih =>
      have hbody := ih (hin.mono fun v hv => List.mem_append_left _ hv)
        fun b hb => hopen b (List.mem_append_left _ hb)
      have hflag := hopen flag (List.mem_append_right _ (List.mem_singleton_self _))
      rw [← Domain.contains_iff, ← Domain.contains_iff] at hflag
      rw [negation, entailment, entailment, hbody, reifiedEntailment, reifiedEntailment]
      cases h0 : (F flag).contains 0 <;> cases h1 : (F flag).contains 1 <;> simp_all [negated]
  | and operands ih =>
      rw [negation, entailment, entailment, any_eq_negated_all,
        entailments_negations fun c hc => ih c hc (hin.mono fun v hv => occurs_of_operand hc hv)
          (FlagsOpen.operand hopen hc), List.map_map, negated_comp_negated, List.map_id]
  | or operands ih =>
      rw [negation, entailment, entailment, any_eq_negated_all,
        entailments_negations fun c hc => ih c hc (hin.mono fun v hv => occurs_of_operand hc hv)
          (FlagsOpen.operand hopen hc), negated_negated]
  | xor => rfl
  | ifThen antecedent consequent _ ih =>
      have hc := ih (hin.mono fun v hv => List.mem_append_right _ hv)
        fun b hb => hopen b (List.mem_append_right _ hb)
      rw [negation, entailment, entailments, entailments, entailments, hc, entailment]
      cases entailment F antecedent <;> cases entailment F consequent <;> rfl
  | not operand => rw [negation, entailment, negated_negated]

end Constraint

end ConstraintSolver
