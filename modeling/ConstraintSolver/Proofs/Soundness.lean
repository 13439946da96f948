import ConstraintSolver.Proofs.Stability

/-! # Soundness — which solutions propagation keeps

    A flag may have values other than 0 and 1 when a tree is propagated.  A
    reification that holds says itself that its flag is 0 or 1, so nothing is
    lost as long as it is only used to hold.  Where it is used not to hold, as
    below a negation or in the condition of a conditional, or in both
    directions, as below another reification, the verdicts and the negations
    rely on its flag (`reliedFlags`).

    A solution survives propagation if these flags are 0 or 1 in it, whatever
    other values their domains have (`propagation_keeps_solutions`).  Verdicts
    come first (`holds_of_verdict`), in both directions at once; then one
    kind of tree after the other. -/

namespace ConstraintSolver

/-- The variables of the list are 0 or 1. -/
def Assignment.Binary (σ : Assignment) (vs : List Variable) : Prop := ∀ b ∈ vs, σ b = 0 ∨ σ b = 1

section Subtrees

variable {F : Family} {σ : Assignment} {vs ws : List Variable} {cs : List Constraint}
  {c : Constraint}

theorem Assignment.Binary.mono (h : σ.Binary ws) (hsub : ∀ v ∈ vs, v ∈ ws) : σ.Binary vs := by
  intro v hv
  exact h v (hsub v hv)

theorem Assignment.Binary.left (h : σ.Binary (vs ++ ws)) : σ.Binary vs :=
  h.mono fun _ => List.mem_append_left _

theorem Assignment.Binary.right (h : σ.Binary (vs ++ ws)) : σ.Binary ws :=
  h.mono fun _ => List.mem_append_right _

theorem Family.Draws.left (h : F.Draws (vs ++ ws) σ) : F.Draws vs σ := by
  intro v hv
  exact h v (List.mem_append_left _ hv)

theorem Family.Draws.right (h : F.Draws (vs ++ ws) σ) : F.Draws ws σ := by
  intro v hv
  exact h v (List.mem_append_right _ hv)

theorem Family.Draws.operand (h : F.Draws (Constraint.occurrencesAll cs) σ) (hc : c ∈ cs) :
    F.Draws c.occurrences σ := by
  intro v hv
  exact h v (Constraint.occurs_of_operand hc hv)

end Subtrees

/-- Between a family and what an assignment leaves of it, the assignment leaves the same. -/
theorem Family.pointed_eq_of_between {F G : Family} {σ : Assignment} (hle : G ≤ F)
    (hge : F.pointed σ ≤ G) : G.pointed σ = F.pointed σ := by
  refine le_antisymm (fun v w hw => ?_) fun v w hw => ?_
  · obtain ⟨hmem, heq⟩ := mem_pointed.mp hw
    exact mem_pointed.mpr ⟨hle v w hmem, heq⟩
  · exact mem_pointed.mpr ⟨hge v w hw, (mem_pointed.mp hw).2⟩

namespace Constraint

open Step Entailment

/-! ## Flags which are relied on -/

mutual

/-- The flags which have to be 0 or 1 for the tree to be used to hold, if `positive`, or not to
    hold. -/
def reliedFlags (positive : Bool) : Constraint → List Variable
  | equality .. => []
  | ordering .. => []
  | linear .. => []
  | element .. => []
  | reified body flag => flags body ++ if positive then [] else [flag]
  | and operands => reliedFlagsAll positive operands
  | or operands => reliedFlagsAll positive operands
  | xor operands => flagsAll operands
  | ifThen antecedent consequent =>
      reliedFlags (!positive) antecedent ++ reliedFlags positive consequent
  | not operand => reliedFlags (!positive) operand

/-- The flags which are relied on in several constraints. -/
def reliedFlagsAll (positive : Bool) : List Constraint → List Variable
  | [] => []
  | c :: cs => reliedFlags positive c ++ reliedFlagsAll positive cs

end

theorem reliedFlagsAll_eq_flatMap (positive : Bool) (cs : List Constraint) :
    reliedFlagsAll positive cs = cs.flatMap (reliedFlags positive) := by
  induction cs with
  | nil => rfl
  | cons c cs ih => rw [reliedFlagsAll, ih, List.flatMap_cons]

/-- The flags relied on in an operand are relied on in all of them. -/
theorem reliedFlag_of_operand {positive : Bool} {cs : List Constraint} {c : Constraint}
    {b : Variable} (hc : c ∈ cs) (hb : b ∈ reliedFlags positive c) :
    b ∈ reliedFlagsAll positive cs := by
  rw [reliedFlagsAll_eq_flatMap]
  exact List.mem_flatMap.mpr ⟨c, hc, hb⟩

/-- What is relied on in all operands is relied on in each. -/
theorem binary_operand {σ : Assignment} {positive : Bool} {cs : List Constraint} {c : Constraint}
    (h : σ.Binary (reliedFlagsAll positive cs)) (hc : c ∈ cs) :
    σ.Binary (reliedFlags positive c) :=
  h.mono fun _ => reliedFlag_of_operand hc

/-- The flags relied on are flags of the tree. -/
theorem reliedFlags_subset_flags (positive : Bool) (c : Constraint) :
    ∀ b ∈ reliedFlags positive c, b ∈ flags c := by
  induction c using treeInduction generalizing positive with
  | equality | ordering | linear | element => exact fun b hb => nomatch hb
  | reified body flag =>
      intro b hb
      rcases List.mem_append.mp hb with hb | hb
      · exact List.mem_append_left _ hb
      · cases positive with
        | true => cases hb
        | false => exact List.mem_append_right _ hb
  | and operands ih | or operands ih =>
      intro b hb
      rw [reliedFlags, reliedFlagsAll_eq_flatMap, List.mem_flatMap] at hb
      obtain ⟨c, hc, hb⟩ := hb
      exact flag_of_operand hc (ih c hc positive b hb)
  | xor => exact fun b hb => hb
  | ifThen antecedent consequent iha ihc =>
      intro b hb
      rcases List.mem_append.mp hb with hb | hb
      · exact List.mem_append_left _ (iha _ b hb)
      · exact List.mem_append_right _ (ihc _ b hb)
  | not operand ih => exact ih (!positive)

/-- Whoever uses a tree not to hold relies on the flags which its negation is pushed past. -/
theorem pushedFlags_subset_reliedFlags (c : Constraint) :
    ∀ b ∈ pushedFlags c, b ∈ reliedFlags false c := by
  induction c using treeInduction with
  | equality | ordering | linear | element | xor | not => exact fun b hb => nomatch hb
  | reified body flag =>
      intro b hb
      rcases List.mem_append.mp hb with hb | hb
      · exact List.mem_append_left _ (pushedFlags_subset_flags body b hb)
      · exact List.mem_append_right _ hb
  | and operands ih | or operands ih =>
      intro b hb
      rw [pushedFlags, pushedFlagsAll_eq_flatMap, List.mem_flatMap] at hb
      obtain ⟨c, hc, hb⟩ := hb
      exact reliedFlag_of_operand hc (ih c hc b hb)
  | ifThen antecedent consequent _ ih => exact fun b hb => List.mem_append_right _ (ih b hb)

/-- To use the negation is to use the tree not to hold. -/
theorem reliedFlags_negation (c : Constraint) :
    ∀ b ∈ reliedFlags true c.negation, b ∈ reliedFlags false c := by
  induction c using treeInduction with
  | equality | ordering | linear | element | xor | not => exact fun b hb => hb
  | reified body flag =>
      intro b hb
      rw [negation, reliedFlags, flags_negation, if_pos rfl, List.append_nil] at hb
      exact List.mem_append_left _ hb
  | and operands ih | or operands ih =>
      intro b hb
      rw [negation, reliedFlags, reliedFlagsAll_eq_flatMap, negations_eq_map, List.flatMap_map,
        List.mem_flatMap] at hb
      obtain ⟨c, hc, hb⟩ := hb
      exact reliedFlag_of_operand hc (ih c hc b hb)
  | ifThen antecedent consequent _ ih =>
      intro b hb
      rw [negation, reliedFlags, reliedFlagsAll, reliedFlagsAll, reliedFlagsAll,
        List.append_nil] at hb
      rcases List.mem_append.mp hb with hb | hb
      · exact List.mem_append_left _ hb
      · exact List.mem_append_right _ (ih b hb)

/-! ## Verdicts -/

section Verdicts

variable {F : Family} {σ : Assignment}

/-- If all flags are 0 or 1, a decided verdict is true of what is drawn. -/
theorem holds_of_decided {c : Constraint} (truth : Bool) (hdraw : F.Draws (occurrences c) σ)
    (hflags : σ.Binary (flags c)) (h : entailment F c = ofBool truth) : holds σ c = truth := by
  have htrue := entailment_of_draws c hdraw hflags (h ▸ ofBool_ne_unknown)
  rw [h] at htrue
  cases truth <;> cases hholds : holds σ c <;> simp_all [ofBool]

/-- The verdict on a reification is right, if its flag is 0 or 1 where it is relied on and the
    verdict on its body is right. -/
theorem holds_of_verdict_reified {body : Constraint} {flag : Variable} {positive : Bool}
    (hdraw : F.Draws (occurrences (.reified body flag)) σ)
    (hflags : σ.Binary (reliedFlags positive (.reified body flag)))
    (h : entailment F (.reified body flag) = ofBool (!positive)) :
    holds σ (.reified body flag) = !positive := by
  have hmem : (F flag).contains (σ flag) = true :=
    Domain.contains_iff.mpr (hdraw flag (List.mem_append_right _ (List.mem_singleton_self _)))
  have hbody : ∀ truth, entailment F body = ofBool truth → holds σ body = truth := fun truth =>
    holds_of_decided truth hdraw.left hflags.left
  -- the flag is relied on only for the verdict that the reification is satisfied
  have hflag : positive = false → σ flag = 0 ∨ σ flag = 1 := by
    rintro rfl
    exact hflags flag (List.mem_append_right _ (List.mem_singleton_self _))
  have hne : ∀ value, (F flag).contains value = false → σ flag ≠ value := by
    rintro value hnot rfl
    rw [hmem] at hnot
    cases hnot
  rw [entailment, reifiedEntailment] at h
  rw [holds]
  cases h0 : (F flag).contains 0 <;> cases h1 : (F flag).contains 1 <;>
    simp only [h0, h1] at h
  · cases positive with
    | true => simp [hne 0 h0, hne 1 h1]
    | false => cases h
  · have hholds := hbody (!positive) h
    have h0 := hne 0 h0
    cases positive with
    | true => simp [hholds, h0]
    | false => simp [hholds, (hflag rfl).resolve_left h0]
  · have hholds := hbody positive (by cases positive <;> simpa [ofBool] using h)
    have h1 := hne 1 h1
    cases positive with
    | true => simp [hholds, h1]
    | false => simp [hholds, (hflag rfl).resolve_right h1]
  · exact absurd h.symm ofBool_ne_unknown

/-- **VERDICTS ARE TRUE** in the direction in which they are relied on: what is violated does not
    hold, and what is satisfied holds, of every assignment drawn from the domains in which the
    flags relied on are 0 or 1. -/
theorem holds_of_verdict (c : Constraint) (positive : Bool) (hdraw : F.Draws (occurrences c) σ)
    (hflags : σ.Binary (reliedFlags positive c)) (h : entailment F c = ofBool (!positive)) :
    holds σ c = !positive := by
  induction c using treeInduction generalizing positive with
  | equality | ordering | linear | element =>
      exact holds_of_decided _ hdraw (fun b hb => nomatch hb) h
  | reified body flag => exact holds_of_verdict_reified hdraw hflags h
  | and operands ih =>
      rw [entailment, entailments_eq_map] at h
      rw [holds, truths_eq_map]
      have hoperand : ∀ c ∈ operands, entailment F c = ofBool (!positive) →
          holds σ c = !positive := fun c hc =>
        ih c hc positive (hdraw.operand hc) (binary_operand hflags hc)
      cases positive with
      | true =>
          -- one violated operand is enough
          obtain ⟨c, hc, hv⟩ := List.mem_map.mp (all_eq_violated.mp h)
          exact List.all_eq_false.mpr ⟨_, List.mem_map_of_mem hc, by simp [hoperand c hc hv]⟩
      | false =>
          have hall := List.forall_mem_map.mp (all_eq_satisfied.mp h)
          exact List.all_eq_true.mpr (List.forall_mem_map.mpr fun c hc => hoperand c hc (hall c hc))
  | or operands ih =>
      rw [entailment, entailments_eq_map] at h
      rw [holds, truths_eq_map]
      have hoperand : ∀ c ∈ operands, entailment F c = ofBool (!positive) →
          holds σ c = !positive := fun c hc =>
        ih c hc positive (hdraw.operand hc) (binary_operand hflags hc)
      cases positive with
      | true =>
          have hall := List.forall_mem_map.mp (any_eq_violated.mp h)
          exact List.any_eq_false.mpr (List.forall_mem_map.mpr fun c hc => by
            simp [hoperand c hc (hall c hc)])
      | false =>
          obtain ⟨c, hc, hv⟩ := List.mem_map.mp (any_eq_satisfied.mp h)
          exact List.any_eq_true.mpr ⟨_, List.mem_map_of_mem hc, hoperand c hc hv⟩
  | xor => exact holds_of_decided _ hdraw hflags h
  | ifThen antecedent consequent iha ihc =>
      have hante := hflags.left
      have hcons := hflags.right
      rw [entailment] at h
      rw [holds]
      cases positive with
      | true =>
          obtain ⟨hsat, hvio⟩ := implies_eq_violated.mp h
          rw [iha false hdraw.left hante hsat, ihc true hdraw.right hcons hvio]
          rfl
      | false =>
          rcases implies_eq_satisfied.mp h with hvio | hsat
          · rw [iha true hdraw.left hante hvio]
            rfl
          · rw [ihc false hdraw.right hcons hsat]
            exact Bool.or_true _
  -- the flags that are relied on are those of the other sign
  | not operand ih =>
      have hoperand : entailment F operand = ofBool (!!positive) := by
        rw [entailment] at h
        cases positive <;> simpa [ofBool] using h
      rw [holds, ih (!positive) hdraw hflags hoperand, Bool.not_not]

end Verdicts

/-! ## Propagation -/

/-- Propagation on any domains from which the assignment is drawn succeeds and keeps its values. -/
def Kept (σ : Assignment) (c : Constraint) : Prop :=
  ∀ D : Domains, Family.Draws D.get (occurrences c) σ →
    Spares (propagate c) D (Family.pointed D.get σ)

section Propagation

variable {σ : Assignment} {D : Domains} {operands : List Constraint}

/-- What is kept on any domains is kept on those which earlier steps have left. -/
theorem Kept.later {c : Constraint} (h : Kept σ c) {E : Domains}
    (hdraw : Family.Draws D.get (occurrences c) σ) (hge : Family.pointed D.get σ ≤ E.get)
    (hle : E.get ≤ D.get) : Spares (propagate c) E (Family.pointed D.get σ) := by
  rw [← Family.pointed_eq_of_between hle hge]
  exact h E (hdraw.pointed.mono hge)

/-- A relation between variables, in which there are no flags. -/
theorem kept_of_no_flags (c : Constraint) (hflags : flags c = [])
    (hneg : ∀ k ∈ offsets c, InRange (-k)) (h : holds σ c = true) : Kept σ c := by
  intro D hdraw
  refine spares_of_holds c ⟨hdraw.inhabited, fun b hb => ?_, hneg⟩ hdraw h
  rw [hflags] at hb
  cases hb

/-- Matching keeps a flag and values which satisfy the reification. -/
theorem kept_matchFlag {body : Constraint} {flag : Variable}
    (hdraw : Family.Draws D.get (occurrences (.reified body flag)) σ)
    (hflags : σ.Binary (flags body)) (h : holds σ (.reified body flag) = true)
    (hbody : holds σ body = true → Kept σ body)
    (hneg : holds σ body.negation = true → Kept σ body.negation) :
    Spares (matchFlag body flag) D (Family.pointed D.get σ) := by
  have hle := Family.pointed_le D.get σ
  have hdrawBody : Family.Draws D.get (occurrences body) σ := hdraw.left
  have hflag : σ flag ∈ D.get flag :=
    hdraw flag (List.mem_append_right _ (List.mem_singleton_self _))
  have hcases := holds_reified_iff.mp h
  have hexact : ∀ value, InRange value → σ flag = value →
      Spares (narrow flag (.exactly value)) D (Family.pointed D.get σ) := fun value hvalue heq =>
    spares_narrow hle ⟨σ flag, Family.mem_pointed.mpr ⟨hflag, rfl⟩⟩ fun x hx =>
      keeps_exactly.mpr ⟨hvalue, (Family.mem_pointed.mp hx).2.trans heq⟩
  rw [matchFlag, spares_reading_iff]
  cases hfix : (D.get flag).fixedValue? with
  | some value =>
      obtain rfl : σ flag = value := (Domain.fixedValue?_eq_some.mp hfix).2 _ hflag
      rcases hcases with ⟨hone, hholds⟩ | ⟨hzero, hholds⟩
      · simp only [hone, if_true]
        exact hbody hholds D hdrawBody
      · have hnegation : holds σ body.negation = true := by
          rw [holds_negation body hflags, hholds]
          rfl
        simp only [hzero, Int.zero_ne_one, if_false]
        refine hneg hnegation D ?_
        rwa [occurrences_negation]
  | none =>
      cases hverdict : entailment D.get body with
      | unknown => exact spares_done hle
      | satisfied =>
          have hholds := holds_of_decided true hdrawBody hflags hverdict
          exact hexact 1 (by decide) (by simpa [hholds] using hcases)
      | violated =>
          have hholds := holds_of_decided false hdrawBody hflags hverdict
          exact hexact 0 (by decide) (by simpa [hholds] using hcases)

/-- A reification keeps what satisfies it, if its body and the negated body do. -/
theorem kept_reified {body : Constraint} {flag : Variable} (hflags : σ.Binary (flags body))
    (h : holds σ (.reified body flag) = true) (hbody : holds σ body = true → Kept σ body)
    (hneg : holds σ body.negation = true → Kept σ body.negation) :
    Kept σ (.reified body flag) := by
  intro D hdraw
  have hle := Family.pointed_le D.get σ
  have hin : ∃ x, x ∈ Family.pointed D.get σ flag := hdraw.pointed.inhabited flag
    (List.mem_append_right _ (List.mem_singleton_self _))
  -- the flag holds the one value of the assignment, so neither end can be taken away
  have hbinary : ∀ x ∈ Family.pointed D.get σ flag, x = 0 ∨ x = 1 := by
    intro x hx
    rw [(Family.mem_pointed.mp hx).2]
    exact (holds_reified_iff.mp h).symm.imp And.left And.left
  have hm : flag ∈ [flag] := List.mem_singleton_self flag
  rw [propagate_reified]
  refine spares_andThen (.narrow _ hm) (spares_narrow hle hin fun x hx => ?_)
    fun E hE hED => spares_andThen (.narrow _ hm) (spares_narrow hE hin fun x hx => ?_)
      fun E' hE' hEE => ?_
  · rcases hbinary x hx with rfl | rfl <;> decide
  · rcases hbinary x hx with rfl | rfl <;> decide
  · rw [← Family.pointed_eq_of_between (hEE.trans hED) hE']
    exact kept_matchFlag (hdraw.pointed.mono hE') hflags h hbody hneg

/-- A conjunction keeps what satisfies it, if its operands do. -/
theorem kept_and (hkept : ∀ c ∈ operands, Kept σ c) : Kept σ (.and operands) := by
  intro D hdraw
  rw [propagate_and]
  refine spares_inOrder (S := occurrencesAll operands) (fun p hp => ?_)
    (Family.pointed_le D.get σ) fun p hp E hE hED => ?_
  · obtain ⟨c, hc, rfl⟩ := List.mem_map.mp hp
    exact (built_propagate c).mono fun v hv => occurs_of_operand hc hv
  · obtain ⟨c, hc, rfl⟩ := List.mem_map.mp hp
    exact (hkept c hc).later (hdraw.operand hc) hE hED

/-- If some operand holds and none that is decided does, the last that is undecided holds. -/
theorem kept_propagateLast (hdraw : Family.Draws D.get (occurrencesAll operands) σ)
    (hsome : ∃ c ∈ operands, holds σ c = true)
    (hdecided : ∀ c ∈ operands, entailment D.get c ≠ .unknown → holds σ c = false)
    (hkept : ∀ c ∈ operands, holds σ c = true → Kept σ c) :
    Spares (propagateLast (undecided D.get operands)) D (Family.pointed D.get σ) := by
  obtain ⟨c, hc, hholds⟩ := hsome
  have hmem : c ∈ undecided D.get operands := by
    refine mem_undecided.mpr ⟨hc, ?_⟩
    by_contra hne
    rw [hdecided c hc hne] at hholds
    cases hholds
  cases hu : undecided D.get operands with
  | nil =>
      rw [hu] at hmem
      cases hmem
  | cons last rest =>
      cases rest with
      | nil =>
          obtain rfl := List.mem_singleton.mp (hu ▸ hmem)
          exact hkept c hc hholds D (hdraw.operand hc)
      | cons => exact spares_done (Family.pointed_le D.get σ)

/-- A disjunction keeps what satisfies it, if its operands do. -/
theorem kept_or (hflags : σ.Binary (reliedFlagsAll true operands))
    (h : holds σ (.or operands) = true) (hkept : ∀ c ∈ operands, holds σ c = true → Kept σ c) :
    Kept σ (.or operands) := by
  intro D hdraw
  rw [propagate_or, spares_reading_iff]
  split
  · exact spares_done (Family.pointed_le D.get σ)
  · rename_i hnone
    rw [entailments_eq_map] at hnone
    refine kept_propagateLast hdraw ?_ (fun c hc hne => ?_) hkept
    · rw [holds, truths_eq_map, List.any_map, List.any_eq_true] at h
      exact h
    · have hviolated : entailment D.get c = .violated := by
        cases hverdict : entailment D.get c with
        | unknown => exact absurd hverdict hne
        | satisfied => exact absurd (List.mem_map.mpr ⟨c, hc, hverdict⟩) hnone
        | violated => rfl
      exact holds_of_verdict c true (hdraw.operand hc) (binary_operand hflags hc) hviolated

/-- An exclusive disjunction keeps what satisfies it, if its operands and their negations do. -/
theorem kept_xor (hflags : σ.Binary (flagsAll operands)) (h : holds σ (.xor operands) = true)
    (hkept : ∀ c ∈ operands, holds σ c = true → Kept σ c)
    (hneg : ∀ c ∈ operands, holds σ c.negation = true → Kept σ c.negation) :
    Kept σ (.xor operands) := by
  intro D hdraw
  have hbinary : ∀ c ∈ operands, σ.Binary (flags c) :=
    fun c hc => hflags.mono fun b hb => flag_of_operand hc hb
  -- what holds of the assignment settles the verdicts, and exactly one operand holds
  have hsettles : ∀ c ∈ operands, Settles (ofBool (holds σ c)) (entailment D.get c) :=
    fun c hc hne => (entailment_of_draws c (hdraw.operand hc) (hbinary c hc) hne).symm
  have hone : (operands.map fun c => ofBool (holds σ c)).count .satisfied = 1 := by
    have hexactly : exactlyOne ((operands.map (holds σ)).map ofBool) = .satisfied := by
      rw [exactlyOne_map_ofBool, ← truths_eq_map, ofBool_eq_satisfied]
      exact h
    rw [List.map_map] at hexactly
    exact (exactlyOne_eq_satisfied.mp hexactly).1
  have hcount := count_satisfied_le hsettles
  rw [propagate_xor, spares_reading_iff, entailments_eq_map]
  rcases hn : (operands.map (entailment D.get)).count .satisfied with _ | _ | n
  · simp only [hn]
    refine kept_propagateLast hdraw ?_ (fun c hc hne => ?_) hkept
    · obtain ⟨c, hc, hholds⟩ := List.mem_map.mp (List.count_pos_iff.mp (hone.symm ▸ Nat.one_pos))
      exact ⟨c, hc, ofBool_eq_satisfied.mp hholds⟩
    · have hnot : entailment D.get c ≠ .satisfied := fun hs =>
        List.count_eq_zero.mp hn (List.mem_map.mpr ⟨c, hc, hs⟩)
      have hverdict := hsettles c hc hne
      cases hholds : holds σ c with
      | true => exact absurd (hverdict.symm.trans (ofBool_eq_satisfied.mpr hholds)) hnot
      | false => rfl
  · simp only [hn, Nat.zero_add]
    refine spares_inOrder built_negations (Family.pointed_le D.get σ) fun p hp E hE hED => ?_
    obtain ⟨c, hcu, rfl⟩ := List.mem_map.mp hp
    obtain ⟨hc, hunknown⟩ := mem_undecided.mp hcu
    -- a second operand would hold
    have hholds : holds σ c = false := by
      cases hholds : holds σ c with
      | false => rfl
      | true =>
          have hlt := count_satisfied_lt hsettles hc (by simp [hunknown])
            (ofBool_eq_satisfied.mpr hholds)
          omega
    have hnegation : holds σ c.negation = true := by
      rw [holds_negation c (hbinary c hc), hholds]
      rfl
    refine (hneg c hc hnegation).later ?_ hE hED
    rw [occurrences_negation]
    exact hdraw.operand hc
  · omega

/-- An implication keeps what satisfies it, if its consequent and the negated antecedent do. -/
theorem kept_ifThen {antecedent consequent : Constraint}
    (hflags : σ.Binary (reliedFlags true (.ifThen antecedent consequent)))
    (h : holds σ (.ifThen antecedent consequent) = true)
    (hneg : holds σ antecedent.negation = true → Kept σ antecedent.negation)
    (hconsequent : holds σ consequent = true → Kept σ consequent) :
    Kept σ (.ifThen antecedent consequent) := by
  intro D hdraw
  have hante := hflags.left
  have hcons := hflags.right
  have hdrawAnte : Family.Draws D.get (occurrences antecedent) σ := hdraw.left
  have hdrawCons : Family.Draws D.get (occurrences consequent) σ := hdraw.right
  have hcases : holds σ antecedent = false ∨ holds σ consequent = true := by
    simpa [holds] using h
  rw [propagate_ifThen, spares_reading_iff]
  cases hverdict : entailment D.get antecedent with
  | satisfied =>
      have hholds := holds_of_verdict antecedent false hdrawAnte hante hverdict
      exact hconsequent (hcases.resolve_left (by simp [hholds])) D hdrawCons
  | violated => exact spares_done (Family.pointed_le D.get σ)
  | unknown =>
      by_cases hviolated : entailment D.get consequent = .violated
      · have hnot := holds_of_verdict consequent true hdrawCons hcons hviolated
        have hfalse : holds σ antecedent = false := hcases.resolve_right (by simp [hnot])
        -- the negated antecedent is propagated, which is sound since its flags are 0 or 1
        have hnegation : holds σ antecedent.negation = true := by
          rw [holds_negation_of_pushed antecedent
            (hante.mono (pushedFlags_subset_reliedFlags antecedent)), hfalse]
          rfl
        simp only [hviolated, if_true]
        refine hneg hnegation D ?_
        rwa [occurrences_negation]
      · simp only [hviolated, if_false]
        exact spares_done (Family.pointed_le D.get σ)

/-- A negation keeps what satisfies it, as its operand is not known to hold. -/
theorem kept_not {operand : Constraint} (hflags : σ.Binary (reliedFlags false operand))
    (h : holds σ (.not operand) = true) : Kept σ (.not operand) := by
  intro D hdraw
  rw [propagate_not, spares_reading_iff]
  split
  · rename_i hverdict
    have hholds := holds_of_verdict operand false hdraw hflags hverdict
    simp [holds, hholds] at h
  · exact spares_done (Family.pointed_le D.get σ)

/-- If all flags are 0 or 1, so are those relied on, for the tree and for its negation. -/
theorem binary_relied {c : Constraint} (h : σ.Binary (flags c)) :
    σ.Binary (reliedFlags true c) ∧ σ.Binary (reliedFlags true c.negation) := by
  constructor
  · exact h.mono (reliedFlags_subset_flags true c)
  · rw [← flags_negation] at h
    exact h.mono (reliedFlags_subset_flags true c.negation)

/-- A solution is kept if the flags relied on are 0 or 1 in it. -/
theorem kept_of_holds (c : Constraint) (hneg : ∀ k ∈ offsets c, InRange (-k))
    (hflags : σ.Binary (reliedFlags true c)) (h : holds σ c = true) : Kept σ c := by
  induction c using reasoningInduction with
  | equality | ordering | linear | element => exact kept_of_no_flags _ rfl hneg h
  | reified body flag ihb ihn =>
      have hbody : σ.Binary (flags body) := hflags.left
      obtain ⟨hrelied, hreliedNegation⟩ := binary_relied hbody
      have hnegNegation : ∀ k ∈ offsets body.negation, InRange (-k) := by
        rwa [offsets_negation]
      exact kept_reified hbody h (ihb hneg hrelied) (ihn hnegNegation hreliedNegation)
  | and operands ih =>
      -- every operand holds, and each is kept on its own
      rw [holds, truths_eq_map, List.all_map, List.all_eq_true] at h
      refine kept_and fun c hc => ?_
      exact ih c hc (fun k hk => hneg k (offset_of_operand hc hk)) (binary_operand hflags hc)
        (h c hc)
  | or operands ih =>
      refine kept_or hflags h fun c hc => ?_
      exact ih c hc (fun k hk => hneg k (offset_of_operand hc hk)) (binary_operand hflags hc)
  | xor operands ih =>
      -- an operand may be propagated as it is or negated, so both signs of its flags are needed
      have hrelied : ∀ c ∈ operands,
          σ.Binary (reliedFlags true c) ∧ σ.Binary (reliedFlags true c.negation) := by
        intro c hc
        exact binary_relied (hflags.mono fun b hb => flag_of_operand hc hb)
      have hnegs : ∀ c ∈ operands, ∀ k ∈ offsets c, InRange (-k) := by
        intro c hc k hk
        exact hneg k (offset_of_operand hc hk)
      refine kept_xor hflags h (fun c hc => (ih c hc).1 (hnegs c hc) (hrelied c hc).1) ?_
      intro c hc
      apply (ih c hc).2 _ (hrelied c hc).2
      rw [offsets_negation]
      exact hnegs c hc
  | ifThen antecedent consequent iha ihc =>
      have hante : σ.Binary (reliedFlags true antecedent.negation) :=
        hflags.left.mono (reliedFlags_negation antecedent)
      have hnegAnte : ∀ k ∈ offsets antecedent.negation, InRange (-k) := by
        rw [offsets_negation]
        intro k hk
        exact hneg k (List.mem_append_left _ hk)
      refine kept_ifThen hflags h (iha hnegAnte hante) (ihc ?_ hflags.right)
      intro k hk
      exact hneg k (List.mem_append_right _ hk)
  | not operand => exact kept_not hflags h

end Propagation

/-- **PROPAGATION KEEPS SOLUTIONS**, whatever values the flags can have: if the flags relied on
    are 0 or 1 in a solution drawn from the domains, propagation succeeds and takes none of its
    values away. -/
theorem propagation_keeps_solutions (c : Constraint) {D : Domains}
    (hneg : ∀ k ∈ offsets c, InRange (-k)) (σ : Assignment)
    (hdraw : Family.Draws D.get (occurrences c) σ)
    (hflags : ∀ b ∈ reliedFlags true c, σ b = 0 ∨ σ b = 1) (h : holds σ c = true) :
    (propagate c D).1 = .ok () ∧ ∀ v ∈ occurrences c, σ v ∈ (propagate c D).2.get v := by
  obtain ⟨hok, hkept⟩ := kept_of_holds c hneg hflags h D hdraw
  exact ⟨hok, fun v hv => hkept v _ (Family.mem_pointed.mpr ⟨hdraw v hv, rfl⟩)⟩

/-- If the flag is 1 exactly if the first variable is 0, the third variable is 1. -/
def flagDemand : Constraint :=
  .ifThen (.reified (.equality ⟨0, 0⟩ .equal (.constant 0)) ⟨0, 1⟩)
    (.equality ⟨0, 2⟩ .equal (.constant 1))

/-- The first variable is 1, the flag 0 or 5, and the third variable 0 or 1. -/
def wideFlag : Domains :=
  ⟨0, #[⟨.between 1 1, 0⟩, ⟨.ofValues [0, 5], 0⟩, ⟨.between 0 1, 0⟩], [], []⟩

/-- The condition does not hold if the flag is 5, yet its verdict is that it is satisfied. -/
theorem flagDemand_keeps_one_solution_and_loses_another :
    let kept : Assignment := fun v => [1, 0, 1][v.index]?.getD 0
    let lost : Assignment := fun v => [1, 5, 0][v.index]?.getD 0
    (∀ v ∈ occurrences flagDemand, kept v ∈ (propagate flagDemand wideFlag).2.get v) ∧
      (∀ v ∈ occurrences flagDemand, lost v ∈ wideFlag.get v) ∧ holds lost flagDemand = true ∧
      (propagate flagDemand wideFlag).1 = .ok () ∧
      ¬ lost ⟨0, 2⟩ ∈ (propagate flagDemand wideFlag).2.get ⟨0, 2⟩ := by
  intro kept lost
  have hdraw : ∀ v ∈ occurrences flagDemand, kept v ∈ wideFlag.get v := by decide +kernel
  obtain ⟨hok, hkept⟩ := propagation_keeps_solutions flagDemand (by decide) kept hdraw
    (by decide +kernel) (by decide +kernel)
  exact ⟨hkept, by decide +kernel, by decide +kernel, hok, by decide +kernel⟩

end Constraint

end ConstraintSolver
