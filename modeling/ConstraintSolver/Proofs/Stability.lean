import ConstraintSolver.Proofs.Primitives

/-! # Stability — families which propagation leaves alone

    A family of non-empty domains is stable under a constraint when
    propagating the constraint is idle.  The connectives look at verdicts and
    may propagate another operand, or a negation, on smaller domains, so
    propagation is not monotone by its form.  It is monotone nevertheless
    with respect to stable families, and this is proved in three rounds:

    * what is known to hold is stable (`stable_of_satisfied`);
    * what is known to be violated is not (`not_stable_of_violated`);
    * a stable family inside the domains is spared (`spares_of_stable`).

    The third uses the first two: when an operand was undecided before and
    is decided on the smaller family, it has to be known to hold there, for
    otherwise the smaller family would not be stable.

    An assignment that satisfies the constraint is the stable family of its
    values, so propagation removes none of them (`spares_of_holds`). -/

namespace ConstraintSolver

namespace Constraint

open Step Entailment

/-- What is assumed about the domains when a tree is propagated: no variable
    is out of values, flags are 0 or 1, and offsets can be negated. -/
structure Suits (F : Family) (c : Constraint) : Prop where
  inhabited : F.Inhabited (occurrences c)
  boolean : ∀ b ∈ flags c, ∀ x ∈ F b, x = 0 ∨ x = 1
  negatable : ∀ k ∈ offsets c, InRange (-k)

namespace Suits

variable {F G : Family} {c : Constraint}

/-- Where a tree can be propagated, its flags are open. -/
theorem flagsOpen (h : Suits F c) : FlagsOpen F c :=
  .of_boolean (h.inhabited.mono (flags_subset_occurrences c)) h.boolean

/-- A tree that can be propagated can still be on smaller domains with values. -/
theorem mono (h : Suits F c) (hle : G ≤ F) (hin : G.Inhabited (occurrences c)) : Suits G c :=
  ⟨hin, fun b hb x hx => h.boolean b hb x (hle b x hx), h.negatable⟩

/-- Without flags, values for the variables are enough. -/
theorem of_flags_eq_nil (hflags : flags c = []) (hin : F.Inhabited (occurrences c))
    (hneg : ∀ k ∈ offsets c, InRange (-k)) : Suits F c := by
  refine ⟨hin, fun b hb => ?_, hneg⟩
  rw [hflags] at hb
  exact absurd hb List.not_mem_nil

/-- The negation of a tree refers to the same variables, flags and offsets. -/
theorem negation (h : Suits F c) : Suits F c.negation := by
  refine ⟨?_, ?_, ?_⟩
  · rw [occurrences_negation]
    exact h.inhabited
  · rw [flags_negation]
    exact h.boolean
  · rw [offsets_negation]
    exact h.negatable

/-- Where a reification can be propagated, its body can. -/
theorem body {flag : Variable} (h : Suits F (.reified c flag)) : Suits F c :=
  ⟨h.inhabited.mono fun _ hv => List.mem_append_left _ hv,
    fun b hb => h.boolean b (List.mem_append_left _ hb), h.negatable⟩

/-- The flag of a reification has a value, and none but 0 and 1. -/
theorem flag {flag : Variable} (h : Suits F (.reified c flag)) :
    (∃ x, x ∈ F flag) ∧ ∀ x ∈ F flag, x = 0 ∨ x = 1 :=
  ⟨h.inhabited flag (List.mem_append_right _ (List.mem_singleton_self _)),
    h.boolean flag (List.mem_append_right _ (List.mem_singleton_self _))⟩

variable {operands : List Constraint}

/-- What suits all operands together suits each of them. -/
theorem ofAll (hin : F.Inhabited (occurrencesAll operands))
    (hbool : ∀ b ∈ flagsAll operands, ∀ x ∈ F b, x = 0 ∨ x = 1)
    (hneg : ∀ k ∈ offsetsAll operands, InRange (-k)) (hc : c ∈ operands) : Suits F c :=
  ⟨hin.mono fun _ hv => occurs_of_operand hc hv, fun b hb => hbool b (flag_of_operand hc hb),
    fun k hk => hneg k (offset_of_operand hc hk)⟩

theorem ofAnd (h : Suits F (.and operands)) (hc : c ∈ operands) : Suits F c :=
  ofAll h.inhabited h.boolean h.negatable hc

theorem ofOr (h : Suits F (.or operands)) (hc : c ∈ operands) : Suits F c :=
  ofAll h.inhabited h.boolean h.negatable hc

theorem ofXor (h : Suits F (.xor operands)) (hc : c ∈ operands) : Suits F c :=
  ofAll h.inhabited h.boolean h.negatable hc

variable {left right : Constraint}

theorem antecedent (h : Suits F (.ifThen left right)) : Suits F left :=
  ⟨h.inhabited.mono fun _ hv => List.mem_append_left _ hv,
    fun b hb => h.boolean b (List.mem_append_left _ hb),
    fun k hk => h.negatable k (List.mem_append_left _ hk)⟩

theorem consequent (h : Suits F (.ifThen left right)) : Suits F right :=
  ⟨h.inhabited.mono fun _ hv => List.mem_append_right _ hv,
    fun b hb => h.boolean b (List.mem_append_right _ hb),
    fun k hk => h.negatable k (List.mem_append_right _ hk)⟩

theorem operand (h : Suits F (.not c)) : Suits F c := ⟨h.inhabited, h.boolean, h.negatable⟩

/-- Verdicts on suitable domains settle earlier ones. -/
theorem settles (h : Suits G c) (hle : G ≤ F) : Settles (entailment G c) (entailment F c) :=
  entailment_settles c hle h.inhabited h.flagsOpen

/-- Where a tree can be propagated, its negation has the opposite verdict. -/
theorem entailment_negation (h : Suits F c) :
    entailment F c.negation = (entailment F c).negated :=
  Constraint.entailment_negation c h.inhabited h.flagsOpen

end Suits

/-- Propagating the constraint succeeds and changes no domain. -/
def Stable (c : Constraint) (D : Domains) : Prop := Idle (propagate c) D

/-! ## When a tree is stable -/

section Connectives

variable {D : Domains} {operands : List Constraint}

/-- The undecided operands are those without a verdict. -/
theorem mem_undecided {F : Family} {c : Constraint} :
    c ∈ undecided F operands ↔ c ∈ operands ∧ entailment F c = .unknown := by
  rw [undecided, List.mem_filter, beq_iff_eq]

/-- A reification is stable exactly if its flag is fixed, and the body or its negation is stable,
    as the flag says, or if nothing is known of the flag nor of the body. -/
theorem stable_reified_iff {body : Constraint} {flag : Variable}
    (hsuit : Suits D.get (.reified body flag)) :
    Stable (.reified body flag) D ↔
      ((D.get flag).fixedValue? = some 1 ∧ Stable body D) ∨
      ((D.get flag).fixedValue? = some 0 ∧ Stable body.negation D) ∨
      ((D.get flag).fixedValue? = none ∧ entailment D.get body = .unknown) := by
  obtain ⟨hin, hbool⟩ := hsuit.flag
  have hflag : flag ∈ occurrences (.reified body flag) :=
    List.mem_append_right _ (List.mem_singleton_self _)
  have hsub : ∀ v ∈ occurrences body, v ∈ occurrences (.reified body flag) :=
    fun v hv => List.mem_append_left _ hv
  have hmatch : Built (occurrences (.reified body flag)) (matchFlag body flag) := by
    refine built_matchFlag hflag hsub ((built_propagate body).mono hsub)
      ((built_propagate body.negation).mono ?_)
    rwa [occurrences_negation]
  have hlow : Idle (narrow flag (.atLeast 0)) D :=
    idle_narrow_iff.mpr ⟨hin, fun x hx => by rcases hbool x hx with rfl | rfl <;> decide⟩
  have hhigh : Idle (narrow flag (.atMost 1)) D :=
    idle_narrow_iff.mpr ⟨hin, fun x hx => by rcases hbool x hx with rfl | rfl <;> decide⟩
  rw [Stable, propagate_reified,
    idle_andThen_iff (.narrow _ hflag) (.andThen (.narrow _ hflag) hmatch),
    and_iff_right hlow, idle_andThen_iff (.narrow _ hflag) hmatch, and_iff_right hhigh,
    matchFlag, idle_reading_iff]
  cases hfix : (D.get flag).fixedValue? with
  | some value =>
      rcases hbool value (Domain.fixedValue?_eq_some.mp hfix).1 with rfl | rfl
      · simp [Stable]
      · simp [Stable]
  | none =>
      -- narrowing the flag would fix it
      have hno : ∀ value, ¬ Idle (narrow flag (.exactly value)) D := by
        intro value h
        obtain ⟨⟨x, hx⟩, hall⟩ := idle_narrow_iff.mp h
        have hval : ∀ w ∈ D.get flag, w = value := fun w hw => (keeps_exactly.mp (hall w hw)).2
        have := Domain.fixedValue?_eq_some.mpr ⟨hval x hx ▸ hx, hval⟩
        rw [hfix] at this
        cases this
      cases hbody : entailment D.get body <;> simp [hno, idle_done]

/-- A conjunction is stable exactly if every operand is. -/
theorem stable_and_iff : Stable (.and operands) D ↔ ∀ c ∈ operands, Stable c D := by
  have hbuilt : ∀ p ∈ operands.map propagate, Built (occurrencesAll operands) p := by
    intro p hp
    obtain ⟨c, hc, rfl⟩ := List.mem_map.mp hp
    exact (built_propagate c).mono fun v hv => occurs_of_operand hc hv
  rw [Stable, propagate_and, idle_inOrder_iff hbuilt, List.forall_mem_map]
  rfl

/-- A disjunction is stable exactly if an operand is known to hold, or the last one which may hold
    is stable. -/
theorem stable_or_iff :
    Stable (.or operands) D ↔
      .satisfied ∈ entailments D.get operands ∨
        Idle (propagateLast (undecided D.get operands)) D := by
  rw [Stable, propagate_or, idle_reading_iff]
  split
  · rename_i h
    exact iff_of_true (idle_done D) (.inl h)
  · rename_i h
    exact (or_iff_right h).symm

/-- What was undecided before and still is, is undecided now. -/
theorem undecided_of_settles {F G : Family}
    (h : ∀ c ∈ operands, Settles (entailment G c) (entailment F c)) :
    undecided G operands =
      (undecided F operands).filter fun c => entailment G c == .unknown := by
  rw [undecided, undecided, List.filter_filter]
  refine List.filter_congr fun c hc => ?_
  cases hG : entailment G c == .unknown with
  | false => rfl
  | true =>
      have hF : entailment F c = .unknown := by
        by_contra hne
        exact hne ((h c hc hne).symm.trans (eq_of_beq hG))
      simp [hF]

theorem built_negations {F : Family} :
    ∀ p ∈ (undecided F operands).map fun c => propagate c.negation,
      Built (occurrencesAll operands) p := by
  intro p hp
  obtain ⟨c, hc, rfl⟩ := List.mem_map.mp hp
  have hbuilt := built_propagate c.negation
  rw [occurrences_negation] at hbuilt
  exact hbuilt.mono fun v hv => occurs_of_operand (mem_of_mem_undecided hc) hv

/-- An exclusive disjunction is stable exactly if no operand is known to hold and the last one
    which may hold is stable, or one is known to hold and the negations of the undecided ones are
    stable. -/
theorem stable_xor_iff :
    Stable (.xor operands) D ↔
      ((entailments D.get operands).count .satisfied = 0 ∧
        Idle (propagateLast (undecided D.get operands)) D) ∨
      ((entailments D.get operands).count .satisfied = 1 ∧
        ∀ c ∈ undecided D.get operands, Stable c.negation D) := by
  rw [Stable, propagate_xor, idle_reading_iff]
  rcases hcount : (entailments D.get operands).count .satisfied with _ | _ | n
  · simp [hcount]
  · simp only [hcount, Nat.zero_add, idle_inOrder_iff built_negations, List.forall_mem_map]
    simp [Stable]
  · simp [hcount, not_idle_fail]

/-- An implication is stable exactly if the consequent is stable where the antecedent is known to
    hold, and the negated antecedent where the consequent is known to fail. -/
theorem stable_ifThen_iff {antecedent consequent : Constraint} :
    Stable (.ifThen antecedent consequent) D ↔
      (entailment D.get antecedent = .satisfied → Stable consequent D) ∧
      (entailment D.get antecedent = .unknown → entailment D.get consequent = .violated →
        Stable antecedent.negation D) := by
  rw [Stable, propagate_ifThen, idle_reading_iff]
  cases entailment D.get antecedent with
  | satisfied => simp [Stable]
  | violated => simp [idle_done]
  | unknown =>
      by_cases hc : entailment D.get consequent = .violated
      · simp [hc, Stable]
      · simp [hc, idle_done]

/-- A negation prunes nothing, so it is stable unless its operand is known to hold. -/
theorem stable_not_iff {operand : Constraint} :
    Stable (.not operand) D ↔ entailment D.get operand ≠ .satisfied := by
  rw [Stable, propagate_not, idle_reading_iff]
  split
  · rename_i h
    exact iff_of_false (not_idle_fail _ D) fun hne => hne h
  · rename_i h
    exact iff_of_true (idle_done D) h

end Connectives

/-! ## What is known to hold -/

/-- Where all operands are decided, none is undecided. -/
theorem undecided_eq_nil {F : Family} {cs : List Constraint}
    (h : (entailments F cs).count .unknown = 0) : undecided F cs = [] := by
  rw [entailments_eq_map, List.count_eq_zero] at h
  refine List.filter_eq_nil_iff.mpr fun c hc hu => ?_
  exact h (List.mem_map.mpr ⟨c, hc, eq_of_beq hu⟩)

/-- With a flag that is 0 or 1, the verdict on a reification tells the value of
    the flag and the verdict on the body. -/
theorem reified_cases {F : Family} {body : Constraint} {flag : Variable}
    (hsuit : Suits F (.reified body flag)) :
    ((F flag).fixedValue? = some 1 ∧ entailment F (.reified body flag) = entailment F body) ∨
      ((F flag).fixedValue? = some 0 ∧
        entailment F (.reified body flag) = entailment F body.negation) ∨
      ((F flag).fixedValue? = none ∧ entailment F (.reified body flag) = .unknown) := by
  obtain ⟨⟨x, hx⟩, hbool⟩ := hsuit.flag
  rw [hsuit.body.entailment_negation, entailment, reifiedEntailment]
  -- the flag is open, fixed to one of its values, or empty, which it is not
  by_cases h0 : 0 ∈ F flag <;> by_cases h1 : 1 ∈ F flag
  · have hnone : (F flag).fixedValue? = none := by
      refine Option.eq_none_iff_forall_ne_some.mpr fun v hv => ?_
      have hv' := (Domain.fixedValue?_eq_some.mp hv).2
      exact absurd ((hv' 0 h0).trans (hv' 1 h1).symm) (by decide)
    simp [Domain.contains_iff.mpr h0, Domain.contains_iff.mpr h1, hnone]
  · have hfix : (F flag).fixedValue? = some 0 :=
      Domain.fixedValue?_eq_some.mpr ⟨h0, fun w hw =>
        (hbool w hw).resolve_right fun heq => h1 (heq ▸ hw)⟩
    rw [← Domain.contains_iff, Bool.not_eq_true] at h1
    simp [Domain.contains_iff.mpr h0, h1, hfix]
  · have hfix : (F flag).fixedValue? = some 1 :=
      Domain.fixedValue?_eq_some.mpr ⟨h1, fun w hw =>
        (hbool w hw).resolve_left fun heq => h0 (heq ▸ hw)⟩
    rw [← Domain.contains_iff, Bool.not_eq_true] at h0
    simp [Domain.contains_iff.mpr h1, h0, hfix]
  · rcases hbool x hx with rfl | rfl
    · exact absurd hx h0
    · exact absurd hx h1

/-- **WHAT IS KNOWN TO HOLD IS STABLE**: there is nothing to prune for a
    satisfied constraint. -/
theorem stable_of_satisfied (c : Constraint) {D : Domains} (hsuit : Suits D.get c)
    (h : entailment D.get c = .satisfied) : Stable c D := by
  induction c using reasoningInduction with
  | equality x relation rhs =>
      rw [Stable, propagate, idle_equality_iff hsuit.inhabited]
      exact equalityBalance_of_satisfied h
  | ordering x relation rhs =>
      rw [Stable, propagate, idle_order_iff (over_normalForm x relation rhs) hsuit.inhabited]
      exact orderBalance_of_satisfied (orderShape hsuit.inhabited) h
  | linear x offset relation z =>
      rw [Stable, propagate, idle_linear_iff hsuit.inhabited]
      exact linearBalance_of_satisfied (hsuit.negatable offset (List.mem_singleton_self _)) h
  | element index array rhs first =>
      rw [Stable, propagate, idle_element_iff hsuit.inhabited]
      exact elementBalance_of_satisfied h
  | reified body flag ihb ihn =>
      rw [stable_reified_iff hsuit]
      -- a flag that is open leaves the reification undecided
      rcases reified_cases hsuit with ⟨hfix, heq⟩ | ⟨hfix, heq⟩ | ⟨_, heq⟩
      · exact Or.inl ⟨hfix, ihb hsuit.body (heq ▸ h)⟩
      · exact Or.inr (Or.inl ⟨hfix, ihn hsuit.body.negation (heq ▸ h)⟩)
      · rw [heq] at h
        cases h
  | and operands ih =>
      rw [entailment, entailments_eq_map, all_eq_satisfied, List.forall_mem_map] at h
      exact stable_and_iff.mpr fun c hc => ih c hc (hsuit.ofAnd hc) (h c hc)
  | or operands ih =>
      rw [entailment, any_eq_satisfied] at h
      exact stable_or_iff.mpr (.inl h)
  | xor operands ih =>
      rw [entailment, exactlyOne_eq_satisfied] at h
      refine stable_xor_iff.mpr (.inr ⟨h.1, ?_⟩)
      rw [undecided_eq_nil h.2]
      exact fun c hc => absurd hc List.not_mem_nil
  | ifThen antecedent consequent iha ihc =>
      rw [entailment, implies_eq_satisfied] at h
      refine stable_ifThen_iff.mpr ⟨fun ha => ?_, fun ha hc => ?_⟩
      · exact ihc hsuit.consequent (h.resolve_left (by simp [ha]))
      · simp [ha, hc] at h
  | not operand =>
      rw [entailment, negated_eq_satisfied] at h
      exact stable_not_iff.mpr (by simp [h])

/-! ## What is known to be violated -/

/-- With no operand left, propagation fails. -/
theorem not_idle_propagateLast_nil (D : Domains) : ¬ Idle (propagateLast []) D :=
  not_idle_fail _ D

/-- **WHAT IS KNOWN TO BE VIOLATED IS NOT STABLE.** -/
theorem not_stable_of_violated (c : Constraint) {D : Domains} (hsuit : Suits D.get c)
    (h : entailment D.get c = .violated) : ¬ Stable c D := by
  induction c using reasoningInduction with
  | equality x relation rhs =>
      rw [Stable, propagate, idle_equality_iff hsuit.inhabited]
      exact not_equalityBalance_of_violated hsuit.inhabited h
  | ordering x relation rhs =>
      rw [Stable, propagate, idle_order_iff (over_normalForm x relation rhs) hsuit.inhabited]
      exact not_orderBalance_of_violated (orderShape hsuit.inhabited) h
  | linear x offset relation z =>
      rw [Stable, propagate, idle_linear_iff hsuit.inhabited]
      exact not_linearBalance_of_violated hsuit.inhabited
        (hsuit.negatable offset (List.mem_singleton_self _)) h
  | element index array rhs first =>
      rw [Stable, propagate, idle_element_iff hsuit.inhabited]
      exact not_elementBalance_of_violated (hsuit.inhabited index List.mem_cons_self) h
  | reified body flag ihb ihn =>
      rw [stable_reified_iff hsuit]
      -- a flag that is open leaves the reification undecided
      rcases reified_cases hsuit with ⟨hfix, heq⟩ | ⟨hfix, heq⟩ | ⟨_, heq⟩
      · simp [hfix, ihb hsuit.body (heq ▸ h)]
      · simp [hfix, ihn hsuit.body.negation (heq ▸ h)]
      · rw [heq] at h
        cases h
  | and operands ih =>
      rw [entailment, entailments_eq_map, all_eq_violated, List.mem_map] at h
      obtain ⟨c, hc, hv⟩ := h
      exact fun hst => ih c hc (hsuit.ofAnd hc) hv (stable_and_iff.mp hst c hc)
  | or operands ih =>
      rw [entailment, any_eq_violated] at h
      rw [stable_or_iff, undecided_eq_nil]
      · rintro (hs | hlast)
        · exact absurd (h _ hs) (by simp)
        · exact not_idle_propagateLast_nil D hlast
      · exact List.count_eq_zero.mpr fun hu => absurd (h _ hu) (by simp)
  | xor operands ih =>
      rw [entailment, exactlyOne_eq_violated] at h
      rw [stable_xor_iff]
      rcases h with ⟨hs, hu⟩ | hs
      · rw [hs, undecided_eq_nil hu]
        simp [not_idle_propagateLast_nil]
      · omega
  | ifThen antecedent consequent iha ihc =>
      rw [entailment, implies_eq_violated] at h
      exact fun hst => ihc hsuit.consequent h.2 ((stable_ifThen_iff.mp hst).1 h.1)
  | not operand =>
      rw [entailment, negated_eq_violated] at h
      exact fun hst => stable_not_iff.mp hst h

section Reification

variable {D : Domains} {body : Constraint} {flag : Variable}
  (hsuit : Suits D.get (.reified body flag)) (h : Stable (.reified body flag) D)

include hsuit h

/-- A stable reification has passed on to its flag that the body is satisfied. -/
theorem flag_of_stable (hbody : entailment D.get body = .satisfied) :
    (D.get flag).fixedValue? = some 1 := by
  rcases (stable_reified_iff hsuit).mp h with ⟨hfix, _⟩ | ⟨_, hnegation⟩ | ⟨_, hunknown⟩
  · exact hfix
  · refine absurd hnegation (not_stable_of_violated _ hsuit.body.negation ?_)
    rw [hsuit.body.entailment_negation, hbody]
    rfl
  · rw [hbody] at hunknown
    cases hunknown

/-- A stable reification whose flag is 1 has a stable body. -/
theorem body_of_stable (hflag : (D.get flag).fixedValue? = some 1) : Stable body D := by
  rcases (stable_reified_iff hsuit).mp h with ⟨_, hbody⟩ | ⟨hzero, _⟩ | ⟨hnone, _⟩
  · exact hbody
  · rw [hflag] at hzero
    cases hzero
  · rw [hflag] at hnone
    cases hnone

end Reification

/-! ## Stable families are spared -/

section Spared

variable {D D' : Domains} {operands : List Constraint}

/-- If nothing but the last undecided operand was left, and the smaller family
    is stable under the disjunction, then it is stable under that operand. -/
theorem stable_last {last : Constraint}
    (hsettles : ∀ c ∈ operands, Settles (entailment D'.get c) (entailment D.get c))
    (hlast : undecided D.get operands = [last]) (hsuit : Suits D'.get last)
    (hno : ∀ c ∈ operands, c ∉ undecided D.get operands → entailment D'.get c ≠ .satisfied)
    (h : .satisfied ∈ entailments D'.get operands ∨
      Idle (propagateLast (undecided D'.get operands)) D') : Stable last D' := by
  rw [undecided_of_settles hsettles, hlast] at h
  rcases h with h | h
  · rw [entailments_eq_map] at h
    obtain ⟨c, hc, hs⟩ := List.mem_map.mp h
    have hcl : c = last := by
      by_contra hne
      exact hno c hc (by simp [hlast, hne]) hs
    exact stable_of_satisfied last hsuit (hcl ▸ hs)
  · cases hu : entailment D'.get last == .unknown with
    | true => simpa [hu, propagateLast, Stable] using h
    | false =>
        simp only [List.filter_cons, hu, Bool.false_eq_true, if_false, List.filter_nil] at h
        exact absurd h (not_idle_propagateLast_nil D')

/-- Propagating the last operand that may hold spares a family that is stable below it. -/
theorem spares_propagateLast
    (hsettles : ∀ c ∈ operands, Settles (entailment D'.get c) (entailment D.get c))
    (hle : D'.get ≤ D.get) (hsuit : ∀ c ∈ operands, Suits D'.get c)
    (hnone : ∀ c ∈ operands, entailment D.get c ≠ .satisfied)
    (h : .satisfied ∈ entailments D'.get operands ∨
      Idle (propagateLast (undecided D'.get operands)) D')
    (hspares : ∀ c ∈ operands, Stable c D' → Spares (propagate c) D D'.get) :
    Spares (propagateLast (undecided D.get operands)) D D'.get := by
  -- what was decided before was violated, and stays so in the smaller domains
  have hno : ∀ c ∈ operands, c ∉ undecided D.get operands → entailment D'.get c ≠ .satisfied := by
    intro c hc hcu hs
    cases hD : entailment D.get c with
    | unknown => exact hcu (mem_undecided.mpr ⟨hc, hD⟩)
    | satisfied => exact hnone c hc hD
    | violated =>
        rw [(hsettles c hc).violated hD] at hs
        cases hs
  cases hu : undecided D.get operands with
  | nil =>
      rw [undecided_of_settles hsettles, hu] at h
      rcases h with h | h
      · rw [entailments_eq_map] at h
        obtain ⟨c, hc, hs⟩ := List.mem_map.mp h
        exact absurd hs (hno c hc (by simp [hu]))
      · exact absurd h (not_idle_propagateLast_nil D')
  | cons last rest =>
      cases rest with
      | nil =>
          have hlast := mem_of_mem_undecided (hu ▸ List.mem_singleton_self last)
          exact hspares last hlast (stable_last hsettles hu (hsuit last hlast) hno h)
      | cons => exact spares_done hle

end Spared

/-- Propagation spares the second state, if it is stable and lies inside the
    domains. -/
def Careful (D' : Domains) (c : Constraint) : Prop :=
  ∀ D : Domains, Suits D.get c → D'.get ≤ D.get → Family.Inhabited D'.get (occurrences c) →
    Stable c D' → Spares (propagate c) D D'.get

section Careful

variable {D D' : Domains}

/-- A flag is fixed to the only value it has in a stable family. -/
theorem spares_fixed {flag : Variable} {value : Int} (hle : D'.get ≤ D.get)
    (hflag : ∃ x, x ∈ D'.get flag) (hvalue : InRange value)
    (hfix : (D'.get flag).fixedValue? = some value) :
    Spares (narrow flag (.exactly value)) D D'.get := by
  obtain ⟨_, hall⟩ := Domain.fixedValue?_eq_some.mp hfix
  exact spares_narrow hle hflag fun x hx => keeps_exactly.mpr ⟨hvalue, hall x hx⟩

/-- Propagating a body as its flag says spares a family that is stable below it. -/
theorem spares_matchFlag {body : Constraint} {flag : Variable}
    (hbody : Careful D' body) (hneg : Careful D' body.negation)
    (hsuit : Suits D.get (.reified body flag)) (hsuit' : Suits D'.get (.reified body flag))
    (hle : D'.get ≤ D.get) (h : Stable (.reified body flag) D') :
    Spares (matchFlag body flag) D D'.get := by
  obtain ⟨hflag, _⟩ := hsuit'.flag
  have hstable := (stable_reified_iff hsuit').mp h
  rw [matchFlag, spares_reading_iff]
  cases hfix : (D.get flag).fixedValue? with
  | some value =>
      have hfix' := Domain.fixedValue?_of_le (hle flag) hflag hfix
      rw [hfix'] at hstable
      rcases hsuit.flag.2 value (Domain.fixedValue?_eq_some.mp hfix).1 with rfl | rfl
      · have hstable' : Stable body.negation D' := by simpa using hstable
        exact hneg D hsuit.body.negation hle hsuit'.body.negation.inhabited hstable'
      · have hstable' : Stable body D' := by simpa using hstable
        exact hbody D hsuit.body hle hsuit'.body.inhabited hstable'
  | none =>
      have hsettles := hsuit'.body.settles hle
      cases hverdict : entailment D.get body with
      | unknown => exact spares_done hle
      | satisfied =>
          -- the negation is violated on the smaller family, so only the value 1 is left there
          have hbody' := hsettles.satisfied hverdict
          have hneg' : entailment D'.get body.negation = .violated := by
            rw [hsuit'.body.entailment_negation, hbody']
            rfl
          have hnot := not_stable_of_violated body.negation hsuit'.body.negation hneg'
          have hone : (D'.get flag).fixedValue? = some 1 := by
            simpa [hnot, hbody'] using hstable.imp And.left id
          exact spares_fixed hle hflag (by decide) hone
      | violated =>
          have hbody' := hsettles.violated hverdict
          have hnot := not_stable_of_violated body hsuit'.body hbody'
          have hzero : (D'.get flag).fixedValue? = some 0 := by
            simpa [hnot, hbody'] using hstable.imp id (Or.imp And.left id)
          exact spares_fixed hle hflag (by decide) hzero

/-- A reification is spared if its body and the negated body are. -/
theorem careful_reified {body : Constraint} {flag : Variable} (hbody : Careful D' body)
    (hneg : Careful D' body.negation) : Careful D' (.reified body flag) := by
  intro D hsuit hle hin h
  have hsuit' := hsuit.mono hle hin
  obtain ⟨hflag, hbool⟩ := hsuit'.flag
  have hm : flag ∈ [flag] := List.mem_singleton_self flag
  rw [propagate_reified]
  -- the flag is cut down to 0 and 1 first, which takes nothing from the smaller family
  refine spares_andThen (.narrow _ hm) (spares_narrow hle hflag fun x hx => ?_)
    fun E hE hED => spares_andThen (.narrow _ hm) (spares_narrow hE hflag fun x hx => ?_)
      fun E' hE' hEE => ?_
  · rcases hbool x hx with rfl | rfl <;> decide
  · rcases hbool x hx with rfl | rfl <;> decide
  · have hsuitE : Suits E'.get (.reified body flag) :=
      hsuit.mono (hEE.trans hED) fun v hv => (hin v hv).imp fun x hx => hE' v x hx
    exact spares_matchFlag hbody hneg hsuitE hsuit' hE' h

/-- A conjunction is spared if its operands are. -/
theorem careful_and {operands : List Constraint} (ih : ∀ c ∈ operands, Careful D' c) :
    Careful D' (.and operands) := by
  intro D hsuit hle hin h
  have hsuit' := hsuit.mono hle hin
  rw [propagate_and]
  refine spares_inOrder (S := occurrencesAll operands) (fun p hp => ?_) hle
    fun p hp E hE hED => ?_
  · obtain ⟨c, hc, rfl⟩ := List.mem_map.mp hp
    exact (built_propagate c).mono fun v hv => occurs_of_operand hc hv
  · obtain ⟨c, hc, rfl⟩ := List.mem_map.mp hp
    have hinc := (hsuit'.ofAnd hc).inhabited
    refine ih c hc E ((hsuit.ofAnd hc).mono hED fun v hv => ?_) hE hinc
      (stable_and_iff.mp h c hc)
    exact (hinc v hv).imp fun x hx => hE v x hx

/-- A disjunction is spared if its operands are. -/
theorem careful_or {operands : List Constraint} (ih : ∀ c ∈ operands, Careful D' c) :
    Careful D' (.or operands) := by
  intro D hsuit hle hin h
  have hsuit' := hsuit.mono hle hin
  have hsettles : ∀ c ∈ operands, Settles (entailment D'.get c) (entailment D.get c) :=
    fun c hc => (hsuit'.ofOr hc).settles hle
  rw [propagate_or, spares_reading_iff]
  split
  · exact spares_done hle
  · rename_i hnone
    refine spares_propagateLast hsettles hle (fun c hc => hsuit'.ofOr hc) (fun c hc hs => ?_)
      (stable_or_iff.mp h) fun c hc hst => ?_
    · rw [entailments_eq_map] at hnone
      exact hnone (List.mem_map.mpr ⟨c, hc, hs⟩)
    · exact ih c hc D (hsuit.ofOr hc) hle (hsuit'.ofOr hc).inhabited hst

/-- An operand that is undecided when another one is known to hold cannot come to
    hold on a stable family as well. -/
theorem stable_negation_of_one {operands : List Constraint} (hsuit' : Suits D'.get (.xor operands))
    (hsettles : ∀ c ∈ operands, Settles (entailment D'.get c) (entailment D.get c))
    (hD : (entailments D.get operands).count .satisfied = 1) (h : Stable (.xor operands) D')
    {c : Constraint} (hc : c ∈ operands) (hunknown : entailment D.get c = .unknown) :
    Stable c.negation D' := by
  have hcount := count_satisfied_le hsettles
  rw [← entailments_eq_map, ← entailments_eq_map] at hcount
  obtain ⟨hone, hneg⟩ := (stable_xor_iff.mp h).resolve_left fun h => by omega
  cases hc' : entailment D'.get c with
  | unknown => exact hneg c (mem_undecided.mpr ⟨hc, hc'⟩)
  | violated =>
      refine stable_of_satisfied _ (hsuit'.ofXor hc).negation ?_
      rw [(hsuit'.ofXor hc).entailment_negation, hc']
      rfl
  | satisfied =>
      -- a second operand would hold
      have hlt := count_satisfied_lt hsettles hc (by simp [hunknown]) hc'
      rw [← entailments_eq_map, ← entailments_eq_map] at hlt
      omega

/-- An exclusive disjunction is spared if its operands and their negations are. -/
theorem careful_xor {operands : List Constraint}
    (ih : ∀ c ∈ operands, Careful D' c ∧ Careful D' c.negation) : Careful D' (.xor operands) := by
  intro D hsuit hle hin h
  have hsuit' := hsuit.mono hle hin
  have hsettles : ∀ c ∈ operands, Settles (entailment D'.get c) (entailment D.get c) :=
    fun c hc => (hsuit'.ofXor hc).settles hle
  have hst := stable_xor_iff.mp h
  have hcount := count_satisfied_le hsettles
  rw [← entailments_eq_map, ← entailments_eq_map] at hcount
  rw [propagate_xor, spares_reading_iff]
  -- none holds, so one may be left; or one holds, so the others are negated; two would not be
  -- stable
  rcases hn : (entailments D.get operands).count .satisfied with _ | _ | n
  · simp only [hn]
    refine spares_propagateLast hsettles hle (fun c hc => hsuit'.ofXor hc) (fun c hc hs => ?_)
      (hst.symm.imp (fun h => ?_) And.right) fun c hc hst => ?_
    · rw [entailments_eq_map, List.count_eq_zero] at hn
      exact hn (List.mem_map.mpr ⟨c, hc, hs⟩)
    · exact List.count_pos_iff.mp (by omega)
    · exact (ih c hc).1 D (hsuit.ofXor hc) hle (hsuit'.ofXor hc).inhabited hst
  · simp only [hn, Nat.zero_add]
    refine spares_inOrder built_negations hle fun p hp E hE hED => ?_
    obtain ⟨c, hcu, rfl⟩ := List.mem_map.mp hp
    obtain ⟨hc, hunknown⟩ := mem_undecided.mp hcu
    have hinc := (hsuit'.ofXor hc).negation.inhabited
    refine (ih c hc).2 E ((hsuit.ofXor hc).negation.mono hED fun v hv => ?_) hE hinc
      (stable_negation_of_one hsuit' hsettles hn h hc hunknown)
    exact (hinc v hv).imp fun x hx => hE v x hx
  · omega

/-- An implication is spared if the negated antecedent and the consequent are. -/
theorem careful_ifThen {antecedent consequent : Constraint}
    (hneg : Careful D' antecedent.negation) (hconsequent : Careful D' consequent) :
    Careful D' (.ifThen antecedent consequent) := by
  intro D hsuit hle hin h
  have hsuit' := hsuit.mono hle hin
  obtain ⟨hcons, hante⟩ := stable_ifThen_iff.mp h
  have hsa := hsuit'.antecedent.settles hle
  have hsc := hsuit'.consequent.settles hle
  rw [propagate_ifThen, spares_reading_iff]
  cases ha : entailment D.get antecedent with
  | satisfied =>
      exact hconsequent D hsuit.consequent hle hsuit'.consequent.inhabited
        (hcons (hsa.satisfied ha))
  | violated => exact spares_done hle
  | unknown =>
      by_cases hc : entailment D.get consequent = .violated
      · have hc' := hsc.violated hc
        simp only [hc, if_true]
        -- the antecedent may be decided in the smaller domains, though it was not in the larger
        -- ones
        have hstable : Stable antecedent.negation D' := by
          cases ha' : entailment D'.get antecedent with
          | satisfied =>
              exact absurd (hcons ha') (not_stable_of_violated consequent hsuit'.consequent hc')
          | unknown => exact hante ha' hc'
          | violated =>
              refine stable_of_satisfied _ hsuit'.antecedent.negation ?_
              rw [hsuit'.antecedent.entailment_negation, ha']
              rfl
        exact hneg D hsuit.antecedent.negation hle hsuit'.antecedent.negation.inhabited hstable
      · simp only [hc, if_false]
        exact spares_done hle

theorem careful_not {operand : Constraint} : Careful D' (.not operand) := by
  intro D hsuit hle hin h
  have hsuit' := hsuit.mono hle hin
  rw [propagate_not, spares_reading_iff]
  split
  · rename_i hs
    exact absurd ((hsuit'.operand.settles hle).satisfied hs) (stable_not_iff.mp h)
  · exact spares_done hle

end Careful

/-- **STABLE FAMILIES ARE SPARED**: propagation on larger domains succeeds and
    removes no value of a family which is stable. -/
theorem spares_of_stable (c : Constraint) {D D' : Domains} (hsuit : Suits D.get c)
    (hin : Family.Inhabited D'.get (occurrences c)) (hle : D'.get ≤ D.get) (h : Stable c D') :
    Spares (propagate c) D D'.get := by
  -- the domains from which the tree is propagated change on the way down
  suffices hcareful : Careful D' c from hcareful D hsuit hle hin h
  clear hsuit hin hle h
  induction c using reasoningInduction with
  | equality x relation rhs =>
      intro D _ hle hin h
      rw [Stable, propagate, idle_equality_iff hin] at h
      rw [propagate]
      exact spares_equality hle hin h
  | ordering x relation rhs =>
      intro D _ hle hin h
      rw [Stable, propagate, idle_order_iff (over_normalForm x relation rhs) hin] at h
      rw [propagate]
      exact spares_order (over_normalForm x relation rhs) hin hle h
  | linear x offset relation z =>
      intro D _ hle hin h
      rw [Stable, propagate, idle_linear_iff hin] at h
      rw [propagate]
      exact spares_linear hle hin h
  | element index array rhs first =>
      intro D _ hle hin h
      rw [Stable, propagate, idle_element_iff hin] at h
      rw [propagate]
      exact spares_element hle hin h
  | reified body flag ihb ihn => exact careful_reified ihb ihn
  | and operands ih => exact careful_and ih
  | or operands ih => exact careful_or ih
  | xor operands ih => exact careful_xor ih
  | ifThen antecedent consequent iha ihc => exact careful_ifThen iha ihc
  | not operand => exact careful_not

end Constraint

/-! ## Solutions are spared -/

/-- Only the value of an assignment is left for every variable. -/
def Domains.pointed (D : Domains) (σ : Assignment) : Domains :=
  { D with
    cells := D.cells.mapIdx fun index cell =>
      { cell with domain := cell.domain.prune (.exactly (σ ⟨D.owner, index⟩)) } }

theorem Domains.get_pointed (D : Domains) (σ : Assignment) :
    (D.pointed σ).get = Family.pointed D.get σ := by
  funext v
  have hempty : ∀ w, (∅ : Domain) = Domain.prune ∅ (.exactly w) :=
    fun w => (Domain.prune_empty _).symm
  unfold Family.pointed Domains.get
  by_cases hv : D.Owns v
  · have hv' : (D.pointed σ).Owns v := hv
    have heq : (⟨D.owner, v.index⟩ : Variable) = v := eq_of_owns hv
    rw [if_pos hv, if_pos hv', Domains.pointed, Array.getElem?_mapIdx, heq]
    cases D.cells[v.index]? with
    | none => exact hempty _
    | some cell => rfl
  · have hv' : ¬ (D.pointed σ).Owns v := hv
    rw [if_neg hv, if_neg hv']
    exact hempty _

namespace Constraint

open Step Entailment

/-- The values of an assignment which satisfies the constraint are a stable
    family. -/
theorem stable_pointed (c : Constraint) {D : Domains} {σ : Assignment} (hsuit : Suits D.get c)
    (hdraw : Family.Draws D.get (occurrences c) σ) (h : holds σ c = true) :
    Stable c (D.pointed σ) := by
  have hget := D.get_pointed σ
  have hle : (D.pointed σ).get ≤ D.get := hget ▸ Family.pointed_le D.get σ
  have hin : Family.Inhabited (D.pointed σ).get (occurrences c) := hget ▸ hdraw.pointed.inhabited
  refine stable_of_satisfied c (hsuit.mono hle hin) ?_
  rw [hget, entailment_of_fixed c fun v hv => Family.fixedValue?_pointed (hdraw v hv), h]
  rfl

/-- **SOUNDNESS OF PROPAGATION**: an assignment drawn from the domains which
    satisfies the constraint survives, and propagation succeeds. -/
theorem spares_of_holds (c : Constraint) {D : Domains} {σ : Assignment} (hsuit : Suits D.get c)
    (hdraw : Family.Draws D.get (occurrences c) σ) (h : holds σ c = true) :
    Spares (propagate c) D (Family.pointed D.get σ) := by
  have hget := D.get_pointed σ
  have hle : (D.pointed σ).get ≤ D.get := hget ▸ Family.pointed_le D.get σ
  have hin : Family.Inhabited (D.pointed σ).get (occurrences c) := hget ▸ hdraw.pointed.inhabited
  rw [← hget]
  exact spares_of_stable c hsuit hin hle (stable_pointed c hsuit hdraw h)

end Constraint

end ConstraintSolver
