import Mathlib.Data.List.Basic
import ConstraintSolver.Constraint.Entailment
import ConstraintSolver.Proofs.Family

/-! # Semantics — what a constraint says about an assignment

    A constraint holds of an assignment or it does not: sums are exact, an
    element outside the array is equal to nothing, and a reification whose
    flag is neither 0 nor 1 does not hold.  Nothing in this module mentions
    propagation; it is what propagation is measured against.

    The negation of a constraint holds when the constraint does not, provided
    that the flags are 0 or 1 (`holds_negation`); of these, only the flags
    which negation is pushed past matter (`holds_negation_of_pushed`).
    Negation changes neither the variables nor the flags nor the offsets of a
    tree, so whatever is assumed about those of a tree is known about those of
    its negation. -/

namespace ConstraintSolver

/-- The value of a term. -/
def Term.value (σ : Assignment) : Term → Int
  | .variable v => σ v
  | .constant value => value

/-- Whether the relation holds of two integers. -/
def EqualityRelation.relates : EqualityRelation → Int → Int → Bool
  | .equal, a, b => a == b
  | .notEqual, a, b => a != b

/-- Whether the relation holds of two integers. -/
def OrderRelation.relates : OrderRelation → Int → Int → Bool
  | .less, a, b => a < b
  | .lessOrEqual, a, b => a ≤ b
  | .greater, a, b => a > b
  | .greaterOrEqual, a, b => a ≥ b

namespace Constraint

mutual

/-- Whether the constraint holds of an assignment. -/
def holds (σ : Assignment) : Constraint → Bool
  | equality x relation rhs => relation.relates (σ x) (rhs.value σ)
  | ordering x relation rhs => relation.relates (σ x) (rhs.value σ)
  | linear x offset relation z => relation.relates (σ x + offset) (σ z)
  | element index array rhs first =>
      (elementAt? array first (σ index)).any fun selected => σ selected == σ rhs
  | reified body flag => (σ flag == 1 && holds σ body) || (σ flag == 0 && !holds σ body)
  | and operands => (truths σ operands).all id
  | or operands => (truths σ operands).any id
  | xor operands => (truths σ operands).count true == 1
  | ifThen antecedent consequent => !holds σ antecedent || holds σ consequent
  | not operand => !holds σ operand

/-- Which of several constraints hold. -/
def truths (σ : Assignment) : List Constraint → List Bool
  | [] => []
  | c :: cs => holds σ c :: truths σ cs

end

theorem truths_eq_map (σ : Assignment) (cs : List Constraint) : truths σ cs = cs.map (holds σ) := by
  induction cs with
  | nil => rfl
  | cons c cs ih => rw [truths, ih, List.map_cons]

/-- Induction over a tree: the operands of a connective come with the
    hypothesis for each of them. -/
@[elab_as_elim]
theorem treeInduction {motive : Constraint → Prop}
    (equality : ∀ x relation rhs, motive (.equality x relation rhs))
    (ordering : ∀ x relation rhs, motive (.ordering x relation rhs))
    (linear : ∀ x offset relation z, motive (.linear x offset relation z))
    (element : ∀ index array rhs first, motive (.element index array rhs first))
    (reified : ∀ body flag, motive body → motive (.reified body flag))
    (and : ∀ operands, (∀ c ∈ operands, motive c) → motive (.and operands))
    (or : ∀ operands, (∀ c ∈ operands, motive c) → motive (.or operands))
    (xor : ∀ operands, (∀ c ∈ operands, motive c) → motive (.xor operands))
    (ifThen : ∀ antecedent consequent, motive antecedent → motive consequent →
      motive (.ifThen antecedent consequent))
    (not : ∀ operand, motive operand → motive (.not operand)) (c : Constraint) : motive c :=
  @Constraint.rec motive (fun cs => ∀ c ∈ cs, motive c) equality ordering linear element
    reified and or xor ifThen not (fun _ h => nomatch h)
    (fun _ _ hc hcs d hd => by
      rcases List.mem_cons.mp hd with rfl | hd
      · exact hc
      · exact hcs d hd) c

/-! ## Variables, flags and offsets -/

mutual

/-- The variables which reify a node of the tree. -/
def flags : Constraint → List Variable
  | equality .. => []
  | ordering .. => []
  | linear .. => []
  | element .. => []
  | reified body flag => flags body ++ [flag]
  | and operands => flagsAll operands
  | or operands => flagsAll operands
  | xor operands => flagsAll operands
  | ifThen antecedent consequent => flags antecedent ++ flags consequent
  | not operand => flags operand

/-- The flags of several constraints. -/
def flagsAll : List Constraint → List Variable
  | [] => []
  | c :: cs => flags c ++ flagsAll cs

end

mutual

/-- The flags which negation is pushed past, on its way to the leaves. -/
def pushedFlags : Constraint → List Variable
  | equality .. => []
  | ordering .. => []
  | linear .. => []
  | element .. => []
  | reified body flag => pushedFlags body ++ [flag]
  | and operands => pushedFlagsAll operands
  | or operands => pushedFlagsAll operands
  | xor _ => []
  | ifThen _ consequent => pushedFlags consequent
  | not _ => []

/-- The flags which negation is pushed past in several constraints. -/
def pushedFlagsAll : List Constraint → List Variable
  | [] => []
  | c :: cs => pushedFlags c ++ pushedFlagsAll cs

end

mutual

/-- The offsets of the linear nodes of the tree. -/
def offsets : Constraint → List Int
  | equality .. => []
  | ordering .. => []
  | linear _ offset _ _ => [offset]
  | element .. => []
  | reified body _ => offsets body
  | and operands => offsetsAll operands
  | or operands => offsetsAll operands
  | xor operands => offsetsAll operands
  | ifThen antecedent consequent => offsets antecedent ++ offsets consequent
  | not operand => offsets operand

/-- The offsets of several constraints. -/
def offsetsAll : List Constraint → List Int
  | [] => []
  | c :: cs => offsets c ++ offsetsAll cs

end

theorem occurrencesAll_eq_flatMap (cs : List Constraint) :
    occurrencesAll cs = cs.flatMap occurrences := by
  induction cs with
  | nil => rfl
  | cons c cs ih => rw [occurrencesAll, ih, List.flatMap_cons]

theorem flagsAll_eq_flatMap (cs : List Constraint) : flagsAll cs = cs.flatMap flags := by
  induction cs with
  | nil => rfl
  | cons c cs ih => rw [flagsAll, ih, List.flatMap_cons]

theorem pushedFlagsAll_eq_flatMap (cs : List Constraint) :
    pushedFlagsAll cs = cs.flatMap pushedFlags := by
  induction cs with
  | nil => rfl
  | cons c cs ih => rw [pushedFlagsAll, ih, List.flatMap_cons]

theorem offsetsAll_eq_flatMap (cs : List Constraint) : offsetsAll cs = cs.flatMap offsets := by
  induction cs with
  | nil => rfl
  | cons c cs ih => rw [offsetsAll, ih, List.flatMap_cons]

/-- A variable of an operand is a variable of the list. -/
theorem occurs_of_operand {cs : List Constraint} {c : Constraint} {v : Variable} (hc : c ∈ cs)
    (hv : v ∈ occurrences c) : v ∈ occurrencesAll cs := by
  rw [occurrencesAll_eq_flatMap]
  exact List.mem_flatMap.mpr ⟨c, hc, hv⟩

/-- A flag of an operand is a flag of the list. -/
theorem flag_of_operand {cs : List Constraint} {c : Constraint} {b : Variable} (hc : c ∈ cs)
    (hb : b ∈ flags c) : b ∈ flagsAll cs := by
  rw [flagsAll_eq_flatMap]
  exact List.mem_flatMap.mpr ⟨c, hc, hb⟩

theorem pushedFlag_of_operand {cs : List Constraint} {c : Constraint} {b : Variable} (hc : c ∈ cs)
    (hb : b ∈ pushedFlags c) : b ∈ pushedFlagsAll cs := by
  rw [pushedFlagsAll_eq_flatMap]
  exact List.mem_flatMap.mpr ⟨c, hc, hb⟩

theorem offset_of_operand {cs : List Constraint} {c : Constraint} {k : Int} (hc : c ∈ cs)
    (hk : k ∈ offsets c) : k ∈ offsetsAll cs := by
  rw [offsetsAll_eq_flatMap]
  exact List.mem_flatMap.mpr ⟨c, hc, hk⟩

/-- A flag occurs in the tree. -/
theorem flags_subset_occurrences (c : Constraint) : ∀ b ∈ flags c, b ∈ occurrences c := by
  induction c using treeInduction with
  | equality => simp [flags]
  | ordering => simp [flags]
  | linear => simp [flags]
  | element => simp [flags]
  | reified body flag ih =>
      intro b hb
      rcases List.mem_append.mp hb with hb | hb
      · exact List.mem_append_left _ (ih b hb)
      · exact List.mem_append_right _ hb
  | and operands ih | or operands ih | xor operands ih =>
      intro b hb
      rw [flags, flagsAll_eq_flatMap, List.mem_flatMap] at hb
      obtain ⟨c, hc, hb⟩ := hb
      exact occurs_of_operand hc (ih c hc b hb)
  | ifThen antecedent consequent iha ihc =>
      intro b hb
      rcases List.mem_append.mp hb with hb | hb
      · exact List.mem_append_left _ (iha b hb)
      · exact List.mem_append_right _ (ihc b hb)
  | not operand ih => exact ih

/-- The flags which negation is pushed past are flags of the tree. -/
theorem pushedFlags_subset_flags (c : Constraint) : ∀ b ∈ pushedFlags c, b ∈ flags c := by
  induction c using treeInduction with
  | equality => simp [pushedFlags]
  | ordering => simp [pushedFlags]
  | linear => simp [pushedFlags]
  | element => simp [pushedFlags]
  | reified body flag ih =>
      intro b hb
      rcases List.mem_append.mp hb with hb | hb
      · exact List.mem_append_left _ (ih b hb)
      · exact List.mem_append_right _ hb
  | and operands ih | or operands ih =>
      intro b hb
      rw [pushedFlags, pushedFlagsAll_eq_flatMap, List.mem_flatMap] at hb
      obtain ⟨c, hc, hb⟩ := hb
      exact flag_of_operand hc (ih c hc b hb)
  | xor => simp [pushedFlags]
  | ifThen antecedent consequent _ ih => exact fun b hb => List.mem_append_right _ (ih b hb)
  | not => simp [pushedFlags]

/-- What a tree lists about its nodes is listed in the same order for its
    negation. -/
theorem occurrences_negation (c : Constraint) : occurrences (negation c) = occurrences c := by
  induction c using treeInduction with
  | equality x relation rhs => cases rhs <;> rfl
  | ordering x relation rhs => cases rhs <;> rfl
  | linear => rfl
  | element => rfl
  | reified body flag ih => rw [negation, occurrences, occurrences, ih]
  | and operands ih | or operands ih =>
      rw [negation, occurrences, occurrences, occurrencesAll_eq_flatMap, occurrencesAll_eq_flatMap,
        negations_eq_map, List.flatMap_map]
      exact List.flatMap_congr ih
  | xor => rfl
  | ifThen antecedent consequent _ ih =>
      rw [negation, occurrences, occurrencesAll, occurrencesAll, occurrencesAll, ih, occurrences,
        List.append_nil]
  | not => rw [negation, occurrences]

/-- Negation keeps the flags. -/
theorem flags_negation (c : Constraint) : flags (negation c) = flags c := by
  induction c using treeInduction with
  | equality => rfl
  | ordering => rfl
  | linear => rfl
  | element => rfl
  | reified body flag ih => rw [negation, flags, flags, ih]
  | and operands ih | or operands ih =>
      rw [negation, flags, flags, flagsAll_eq_flatMap, flagsAll_eq_flatMap,
        negations_eq_map, List.flatMap_map]
      exact List.flatMap_congr ih
  | xor => rfl
  | ifThen antecedent consequent _ ih =>
      rw [negation, flags, flagsAll, flagsAll, flagsAll, ih, flags, List.append_nil]
  | not => rw [negation, flags]

/-- Negation keeps the offsets. -/
theorem offsets_negation (c : Constraint) : offsets (negation c) = offsets c := by
  induction c using treeInduction with
  | equality => rfl
  | ordering => rfl
  | linear => rfl
  | element => rfl
  | reified body flag ih => rw [negation, offsets, offsets, ih]
  | and operands ih | or operands ih =>
      rw [negation, offsets, offsets, offsetsAll_eq_flatMap, offsetsAll_eq_flatMap,
        negations_eq_map, List.flatMap_map]
      exact List.flatMap_congr ih
  | xor => rfl
  | ifThen antecedent consequent _ ih =>
      rw [negation, offsets, offsetsAll, offsetsAll, offsetsAll, ih, offsets, List.append_nil]
  | not => rw [negation, offsets]

/-! ## What an assignment decides -/

/-- The element at an index is the entry at the position, counted from the first index. -/
theorem elementAt?_eq_some {array : List Variable} {first index : Int} {v : Variable} :
    elementAt? array first index = some v ↔
      ∃ k : Nat, index = first + k ∧ array[k]? = some v := by
  rw [elementAt?]
  split
  · rename_i h
    constructor
    · intro hv
      exact ⟨(index - first).toNat, by omega, hv⟩
    · rintro ⟨k, rfl, hv⟩
      rwa [show (first + (k : Int) - first).toNat = k by omega]
  · rename_i h
    constructor
    · intro hv
      cases hv
    · rintro ⟨k, rfl, _⟩
      omega

/-- The first index selects the first entry, and the others select from the rest. -/
theorem elementAt?_cons {b : Variable} {rest : List Variable} {first index : Int} {v : Variable} :
    elementAt? (b :: rest) first index = some v ↔
      (first = index ∧ b = v) ∨ elementAt? rest (first + 1) index = some v := by
  simp only [elementAt?_eq_some]
  constructor
  · rintro ⟨k, rfl, hk⟩
    cases k with
    | zero => exact Or.inl ⟨by simp, by simpa using hk⟩
    | succ k => exact Or.inr ⟨k, by push_cast; omega, by simpa using hk⟩
  · rintro (⟨rfl, rfl⟩ | ⟨k, rfl, hk⟩)
    · exact ⟨0, by simp, by simp⟩
    · exact ⟨k + 1, by push_cast; omega, by simpa using hk⟩

/-- An index that selects something lies between the first one and the last one. -/
theorem elementAt?_bounds {array : List Variable} {first index : Int} {v : Variable}
    (h : elementAt? array first index = some v) :
    first ≤ index ∧ index ≤ first + Int.ofNat array.length - 1 := by
  obtain ⟨k, rfl, hk⟩ := elementAt?_eq_some.mp h
  have := (List.getElem?_eq_some_iff.mp hk).1
  simp only [Int.ofNat_eq_natCast]
  omega

/-- What is selected is in the array. -/
theorem mem_of_elementAt? {array : List Variable} {first index : Int} {v : Variable}
    (h : elementAt? array first index = some v) : v ∈ array := by
  obtain ⟨k, _, hk⟩ := elementAt?_eq_some.mp h
  exact List.mem_of_getElem? hk

/-- The value of the flag of a reification that holds tells whether the body does. -/
theorem holds_reified_iff {σ : Assignment} {body : Constraint} {flag : Variable} :
    holds σ (.reified body flag) = true ↔
      (σ flag = 1 ∧ holds σ body = true) ∨ (σ flag = 0 ∧ holds σ body = false) := by
  simp [holds]

/-- A reified equality holds exactly if the flag is its truth value, which is 0 or 1. -/
theorem holds_reified_equality {σ : Assignment} {x flag : Variable} {rhs : Term} :
    holds σ (.reified (.equality x .equal rhs) flag) = true ↔
      (σ flag = 1 ∧ σ x = rhs.value σ) ∨ (σ flag = 0 ∧ σ x ≠ rhs.value σ) := by
  rw [holds_reified_iff]
  simp [holds, EqualityRelation.relates]

/-- Negating the operands swaps their truth values, if it does so for each of them. -/
theorem truths_negations {σ : Assignment} {cs : List Constraint}
    (h : ∀ c ∈ cs, holds σ (negation c) = !holds σ c) :
    truths σ (negations cs) = (truths σ cs).map (!·) := by
  rw [truths_eq_map, truths_eq_map, negations_eq_map, List.map_map, List.map_map]
  exact List.map_congr_left h

/-- **NEGATION**: a tree holds exactly when its negation does not, if the flags which negation is
    pushed past are 0 or 1. -/
theorem holds_negation_of_pushed {σ : Assignment} (c : Constraint)
    (h : ∀ b ∈ pushedFlags c, σ b = 0 ∨ σ b = 1) : holds σ (negation c) = !holds σ c := by
  induction c using treeInduction with
  | equality x relation rhs => cases relation <;> simp [negation, holds,
      EqualityRelation.negated, EqualityRelation.relates, bne]
  | ordering x relation rhs =>
      cases relation
      all_goals
        simp only [negation, holds, OrderRelation.negated, OrderRelation.relates]
        rw [← decide_not]
        congr 1
        rw [eq_iff_iff]
        omega
  | linear x offset relation z => cases relation <;> simp [negation, holds,
      EqualityRelation.negated, EqualityRelation.relates, bne]
  | element => rfl
  | reified body flag ih =>
      have hb := ih fun b hb => h b (List.mem_append_left _ hb)
      rw [negation, holds, holds, hb]
      -- of 0 and 1, exactly one agrees with the body, and the other with its negation
      rcases h flag (List.mem_append_right _ (List.mem_singleton_self _)) with hf | hf
      · cases hh : holds σ body <;> simp [hf]
      · cases hh : holds σ body <;> simp [hf]
  | and operands ih =>
      have hall := truths_negations fun c hc =>
        ih c hc fun b hb => h b (pushedFlag_of_operand hc hb)
      rw [negation, holds, holds, hall, List.not_all_eq_any_not, List.any_map]
      rfl
  | or operands ih =>
      have hall := truths_negations fun c hc =>
        ih c hc fun b hb => h b (pushedFlag_of_operand hc hb)
      rw [negation, holds, holds, hall, List.not_any_eq_all_not, List.all_map]
      rfl
  | xor => rfl
  -- negation is pushed past the consequent only
  | ifThen antecedent consequent _ ih =>
      rw [negation, holds, holds, truths_eq_map, List.map_cons, List.map_cons, ih h]
      simp
  | not operand => simp [negation, holds]

/-- A tree whose flags are all 0 or 1 holds exactly when its negation does not. -/
theorem holds_negation {σ : Assignment} (c : Constraint)
    (h : ∀ b ∈ flags c, σ b = 0 ∨ σ b = 1) : holds σ (negation c) = !holds σ c :=
  holds_negation_of_pushed c fun b hb => h b (pushedFlags_subset_flags c b hb)

end Constraint

end ConstraintSolver
