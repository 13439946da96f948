import Mathlib.Data.List.Basic
import ConstraintSolver.Constraint.Entailment

/-! # Verdicts — three-valued logic on lists of operands

    A verdict is taken on domains which may shrink later.  The verdicts of
    the connectives are described by when they are decided, and a later
    verdict is said to settle an earlier one when it agrees with whatever
    was decided before (`Settles`).  Every connective settles as soon as its
    operands do (`settles_all`, `settles_any`, `settles_exactlyOne`,
    `Settles.implies`). -/

namespace ConstraintSolver

namespace Entailment

@[simp] theorem negated_negated (e : Entailment) : e.negated.negated = e := by
  cases e <;> rfl

theorem negated_comp_negated : negated ∘ negated = id := funext negated_negated

@[simp] theorem negated_eq_unknown {e : Entailment} : e.negated = unknown ↔ e = unknown := by
  cases e <;> simp [negated]

@[simp] theorem negated_eq_satisfied {e : Entailment} : e.negated = satisfied ↔ e = violated := by
  cases e <;> simp [negated]

@[simp] theorem negated_eq_violated {e : Entailment} : e.negated = violated ↔ e = satisfied := by
  cases e <;> simp [negated]

@[simp] theorem ofBool_eq_satisfied {b : Bool} : ofBool b = satisfied ↔ b = true := by
  cases b <;> simp [ofBool]

@[simp] theorem ofBool_eq_violated {b : Bool} : ofBool b = violated ↔ b = false := by
  cases b <;> simp [ofBool]

@[simp] theorem ofBool_ne_unknown {b : Bool} : ofBool b ≠ unknown := by
  cases b <;> simp [ofBool]

theorem ofBool_not (b : Bool) : ofBool (!b) = (ofBool b).negated := by
  cases b <;> rfl

/-- The opposite relation has the opposite verdict. -/
theorem under_negated (relation : EqualityRelation) (e : Entailment) :
    under relation.negated e = (under relation e).negated := by
  cases relation <;> simp [under, EqualityRelation.negated]

/-- A conjunction is known to fail exactly if an operand is. -/
theorem all_eq_violated {vs : List Entailment} : all vs = violated ↔ violated ∈ vs := by
  rw [all]
  split
  · simp_all
  · split <;> simp_all

/-- A conjunction is known to hold exactly if all operands are. -/
theorem all_eq_satisfied {vs : List Entailment} : all vs = satisfied ↔ ∀ v ∈ vs, v = satisfied := by
  rw [all]
  split
  · rename_i h
    simp only [reduceCtorEq, false_iff]
    exact fun hall => absurd (hall _ h) (by simp)
  · split
    · rename_i h
      simp only [reduceCtorEq, false_iff]
      exact fun hall => absurd (hall _ h) (by simp)
    · rename_i hv hu
      simp only [true_iff]
      intro v hm
      cases v with
      | unknown => exact absurd hm hu
      | satisfied => rfl
      | violated => exact absurd hm hv

/-- "At least one" is "not every one not". -/
theorem any_eq_negated_all (vs : List Entailment) :
    any vs = (all (vs.map negated)).negated := by
  have hmem : ∀ e : Entailment, e ∈ vs.map negated ↔ e.negated ∈ vs := by
    intro e
    rw [List.mem_map]
    constructor
    · rintro ⟨d, hd, rfl⟩
      rwa [negated_negated]
    · intro h
      exact ⟨e.negated, h, negated_negated e⟩
  simp only [any, all, hmem, negated]
  split
  · rfl
  · split <;> rfl

/-- A disjunction is known to hold exactly if an operand is. -/
theorem any_eq_satisfied {vs : List Entailment} : any vs = satisfied ↔ satisfied ∈ vs := by
  rw [any_eq_negated_all, negated_eq_satisfied, all_eq_violated, List.mem_map]
  constructor
  · rintro ⟨e, he, hn⟩
    rw [negated_eq_violated] at hn
    exact hn ▸ he
  · intro h
    exact ⟨_, h, rfl⟩

/-- A disjunction is known to fail exactly if all operands are. -/
theorem any_eq_violated {vs : List Entailment} : any vs = violated ↔ ∀ v ∈ vs, v = violated := by
  rw [any_eq_negated_all, negated_eq_violated, all_eq_satisfied]
  simp

/-- An exclusive disjunction is known to hold exactly if one operand is, and all are decided. -/
theorem exactlyOne_eq_satisfied {vs : List Entailment} :
    exactlyOne vs = satisfied ↔ vs.count satisfied = 1 ∧ vs.count unknown = 0 := by
  rcases hs : vs.count satisfied with _ | _ | n <;> rcases hu : vs.count unknown with _ | m <;>
    simp [exactlyOne, hs, hu]

/-- An exclusive disjunction is known to fail exactly if two operands hold, or none can. -/
theorem exactlyOne_eq_violated {vs : List Entailment} :
    exactlyOne vs = violated ↔
      (vs.count satisfied = 0 ∧ vs.count unknown = 0) ∨ 2 ≤ vs.count satisfied := by
  rcases hs : vs.count satisfied with _ | _ | n <;> rcases hu : vs.count unknown with _ | m <;>
    simp [exactlyOne, hs, hu]

/-- An implication is known to hold exactly if the antecedent fails or the consequent holds. -/
theorem implies_eq_satisfied {a c : Entailment} :
    implies a c = satisfied ↔ a = violated ∨ c = satisfied := by
  cases a <;> cases c <;> simp [implies]

/-- An implication is known to fail exactly if the antecedent holds and the consequent fails. -/
theorem implies_eq_violated {a c : Entailment} :
    implies a c = violated ↔ a = satisfied ∧ c = violated := by
  cases a <;> cases c <;> simp [implies]

/-! ## Later verdicts

    `f` and `g` are the verdicts on the same operands before and after the
    domains have shrunk: what `f` has decided, `g` decides alike. -/

/-- A later verdict decides alike whatever an earlier one has decided. -/
def Settles (later earlier : Entailment) : Prop := earlier ≠ unknown → later = earlier

theorem Settles.satisfied {later earlier : Entailment} (h : Settles later earlier)
    (he : earlier = .satisfied) : later = .satisfied :=
  (h (by simp [he])).trans he

theorem Settles.violated {later earlier : Entailment} (h : Settles later earlier)
    (he : earlier = .violated) : later = .violated :=
  (h (by simp [he])).trans he

/-- A verdict settles another one if it agrees wherever the other is decided. -/
theorem Settles.of_decided {later earlier : Entailment}
    (hs : earlier = .satisfied → later = .satisfied)
    (hv : earlier = .violated → later = .violated) : Settles later earlier := by
  intro h
  cases earlier with
  | unknown => exact absurd rfl h
  | satisfied => exact hs rfl
  | violated => exact hv rfl

/-- Opposite verdicts settle each other as the verdicts do. -/
theorem Settles.negated {later earlier : Entailment} (h : Settles later earlier) :
    Settles later.negated earlier.negated := by
  refine of_decided ?_ ?_
  · simpa using h.violated
  · simpa using h.satisfied

theorem Settles.under {later earlier : Entailment} (h : Settles later earlier)
    (relation : EqualityRelation) : Settles (under relation later) (under relation earlier) := by
  cases relation with
  | equal => exact h
  | notEqual => exact h.negated

/-- An implication is settled by verdicts that settle both of its parts. -/
theorem Settles.implies {a a' c c' : Entailment} (ha : Settles a' a) (hc : Settles c' c) :
    Settles (implies a' c') (implies a c) := by
  refine of_decided ?_ ?_
  · simp only [implies_eq_satisfied]
    exact Or.imp ha.violated hc.satisfied
  · simp only [implies_eq_violated]
    exact And.imp ha.satisfied hc.violated

variable {α : Type} {f g : α → Entailment} {l : List α}

/-- A conjunction is settled by verdicts that settle its operands. -/
theorem settles_all (h : ∀ a ∈ l, Settles (g a) (f a)) :
    Settles (all (l.map g)) (all (l.map f)) := by
  refine Settles.of_decided ?_ ?_
  · simp only [all_eq_satisfied, List.forall_mem_map]
    exact fun hall a ha => (h a ha).satisfied (hall a ha)
  · simp only [all_eq_violated, List.mem_map]
    rintro ⟨a, ha, hv⟩
    exact ⟨a, ha, (h a ha).violated hv⟩

/-- A disjunction is settled by verdicts that settle its operands. -/
theorem settles_any (h : ∀ a ∈ l, Settles (g a) (f a)) :
    Settles (any (l.map g)) (any (l.map f)) := by
  rw [any_eq_negated_all, any_eq_negated_all, List.map_map, List.map_map]
  exact (settles_all fun a ha => (h a ha).negated).negated

/-- Operands which were known to hold go on being counted. -/
theorem count_satisfied_le (h : ∀ a ∈ l, Settles (g a) (f a)) :
    (l.map f).count satisfied ≤ (l.map g).count satisfied := by
  rw [List.count_eq_countP, List.count_eq_countP, List.countP_map, List.countP_map]
  refine List.countP_mono_left fun a ha hs => ?_
  simp only [Function.comp_apply, beq_iff_eq] at *
  exact (h a ha).satisfied hs

/-- An operand which is found to hold is one more. -/
theorem count_satisfied_lt (h : ∀ a ∈ l, Settles (g a) (f a)) {a : α} (ha : a ∈ l)
    (hf : f a ≠ satisfied) (hg : g a = satisfied) :
    (l.map f).count satisfied < (l.map g).count satisfied := by
  obtain ⟨front, back, rfl⟩ := List.append_of_mem ha
  have hfront := count_satisfied_le (l := front) fun b hb => h b (by simp [hb])
  have hback := count_satisfied_le (l := back) fun b hb => h b (by simp [hb])
  simp only [List.map_append, List.map_cons, List.count_append, hg, List.count_cons_self,
    List.count_cons_of_ne hf]
  omega

/-- Nothing changes any more once every operand is decided. -/
theorem map_eq_of_decided (h : ∀ a ∈ l, Settles (g a) (f a))
    (hu : (l.map f).count unknown = 0) : l.map g = l.map f := by
  refine List.map_congr_left fun a ha => h a ha fun hf => ?_
  rw [List.count_eq_zero] at hu
  exact hu (hf ▸ List.mem_map_of_mem ha)

/-- An exclusive disjunction is settled by verdicts that settle its operands. -/
theorem settles_exactlyOne (h : ∀ a ∈ l, Settles (g a) (f a)) :
    Settles (exactlyOne (l.map g)) (exactlyOne (l.map f)) := by
  have hle := count_satisfied_le h
  refine Settles.of_decided ?_ ?_
  · rw [exactlyOne_eq_satisfied, exactlyOne_eq_satisfied]
    rintro ⟨hs, hu⟩
    rw [map_eq_of_decided h hu]
    exact ⟨hs, hu⟩
  · rw [exactlyOne_eq_violated, exactlyOne_eq_violated]
    rintro (⟨hs, hu⟩ | hs)
    · rw [map_eq_of_decided h hu]
      exact Or.inl ⟨hs, hu⟩
    · exact Or.inr (Nat.le_trans hs hle)

end Entailment

end ConstraintSolver
