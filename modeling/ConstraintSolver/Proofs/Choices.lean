import ConstraintSolver.Proofs.Family
import ConstraintSolver.Search.Selection

/-! # Choices — the policies that search can rely on

    The search relies on two things: the chosen variable is an unfixed one of
    the scope, and there is none only if all of the scope is fixed
    (`VariableChoice.choose_cases`); and the chosen value is one of the
    candidates (`ChoosesCandidates`).  The built-in choices of variables do
    the former, and those of values the latter. -/

namespace ConstraintSolver

/-! ## The best candidate -/

namespace TieBreaker

variable {α κ : Type} [LT κ] [DecidableLT κ]

theorem selected_consider (t : TieBreaker α κ) (candidate : α) (key : κ) :
    ∃ best ∈ (t.consider candidate key).selected,
      best = (candidate, key) ∨ t.selected = some best := by
  rw [consider]
  split
  · exact ⟨(candidate, key), rfl, .inl rfl⟩
  · rename_i best hbest
    split
    · exact ⟨(candidate, key), rfl, .inl rfl⟩
    · exact ⟨_, hbest, .inr hbest⟩

theorem selected_foldl (candidates : List α) (key : α → κ) {t : TieBreaker α κ} {seen : α × κ}
    (ht : t.selected = some seen) :
    ∃ best ∈ (candidates.foldl (fun t c => t.consider c (key c)) t).selected,
      best.1 ∈ candidates ∨ best = seen := by
  -- the best candidate so far is only ever replaced by a candidate
  induction candidates generalizing t seen with
  | nil => exact ⟨seen, ht, .inr rfl⟩
  | cons c candidates ih =>
      obtain ⟨best, hbest, hcases⟩ := selected_consider t c (key c)
      obtain ⟨last, hlast, hlast'⟩ := ih hbest
      refine ⟨last, hlast, ?_⟩
      rcases hlast' with hmem | rfl
      · exact Or.inl (List.mem_cons_of_mem c hmem)
      · rcases hcases with rfl | hseen
        · exact Or.inl List.mem_cons_self
        · rw [ht] at hseen
          exact Or.inr (Option.some.inj hseen).symm

/-- There is a best candidate unless there is none at all. -/
theorem best?_cases (direction : Direction) (candidates : List α) (key : α → κ) :
    (candidates = [] ∧ best? direction candidates key = none) ∨
      ∃ v ∈ candidates, best? direction candidates key = some v := by
  cases candidates with
  | nil => exact Or.inl ⟨rfl, rfl⟩
  | cons c candidates =>
      have hfirst : ((new direction).consider c (key c) : TieBreaker α κ).selected =
          some (c, key c) := rfl
      obtain ⟨best, hbest, hcases⟩ := selected_foldl candidates key hfirst
      refine Or.inr ⟨best.1, ?_, ?_⟩
      · rcases hcases with hmem | rfl
        · exact List.mem_cons_of_mem c hmem
        · exact List.mem_cons_self
      · rw [best?, List.foldl_cons, select, Option.mem_def.mp hbest]
        rfl

end TieBreaker

/-! ## Variables -/

namespace VariableChoice

/-- The first choice finds an unfixed variable, or all of the list is fixed. -/
theorem firstUnfixed_cases {s : Store} (vs : List Variable) (hvs : ∀ v ∈ vs, s.owns v = true) :
    (firstUnfixed s vs = .ok none ∧ ∀ v ∈ vs, (s.domain v).isFixed = true) ∨
      ∃ v ∈ vs, firstUnfixed s vs = .ok (some v) ∧ (s.domain v).isFixed = false := by
  induction vs with
  | nil => exact Or.inl ⟨rfl, fun v hv => nomatch hv⟩
  | cons v vs ih =>
      have hv := hvs v List.mem_cons_self
      rw [firstUnfixed, if_neg (by simp [hv])]
      cases hfix : (s.domain v).isFixed with
      | true =>
          rw [if_pos rfl]
          rcases ih fun w hw => hvs w (List.mem_cons_of_mem v hw) with ⟨heq, hall⟩ | ⟨w, hw, h⟩
          · exact Or.inl ⟨heq, List.forall_mem_cons.mpr ⟨hfix, hall⟩⟩
          · exact Or.inr ⟨w, List.mem_cons_of_mem v hw, h⟩
      | false =>
          rw [if_neg Bool.false_ne_true]
          exact Or.inr ⟨v, List.mem_cons_self, rfl, hfix⟩

theorem unfixed_eq {s : Store} {vs : List Variable} (hvs : ∀ v ∈ vs, s.owns v = true) :
    unfixed s vs = .ok (vs.filter fun v => !(s.domain v).isFixed) := by
  have hnone : vs.find? (fun v => !s.owns v) = none := by
    refine List.find?_eq_none.mpr fun v hv => ?_
    simp [hvs v hv]
  rw [unfixed, hnone]

/-- The best of the unfixed variables. -/
theorem bestUnfixed_cases {κ : Type} [LT κ] [DecidableLT κ] {s : Store} (direction : Direction)
    (key : Variable → κ) {vs : List Variable} (hvs : ∀ v ∈ vs, s.owns v = true) :
    ((unfixed s vs).map fun vs => TieBreaker.best? direction vs key) = .ok none ∧
        (∀ v ∈ vs, (s.domain v).isFixed = true) ∨
      ∃ v ∈ vs, ((unfixed s vs).map fun vs => TieBreaker.best? direction vs key) = .ok (some v) ∧
        (s.domain v).isFixed = false := by
  rw [unfixed_eq hvs]
  rcases TieBreaker.best?_cases direction (vs.filter fun v => !(s.domain v).isFixed) key with
    ⟨hnil, hbest⟩ | ⟨v, hv, hbest⟩
  · refine Or.inl ⟨congrArg Except.ok hbest, fun v hv => ?_⟩
    have hnot := List.filter_eq_nil_iff.mp hnil v hv
    simpa using hnot
  · obtain ⟨hmem, hfix⟩ := List.mem_filter.mp hv
    exact Or.inr ⟨v, hmem, congrArg Except.ok hbest, by simpa using hfix⟩

/-- **THE CHOSEN VARIABLE** is unfixed and in the scope; there is none only if all
    of the scope is fixed. -/
theorem choose_cases (choice : VariableChoice) {s : Store} {scope : List Variable}
    (hscope : ∀ v ∈ scope, s.owns v = true) :
    (choice.choose s scope = .ok none ∧ ∀ v ∈ scope, (s.domain v).isFixed = true) ∨
      ∃ v ∈ scope, choice.choose s scope = .ok (some v) ∧ (s.domain v).isFixed = false := by
  cases choice with
  | largestDomain => exact bestUnfixed_cases .maximum _ hscope
  | smallestDomain => exact bestUnfixed_cases .minimum _ hscope
  | mostConstrained => exact bestUnfixed_cases .maximum _ hscope
  | inputOrder => exact firstUnfixed_cases scope hscope

end VariableChoice

/-! ## Values -/

/-- The policy always returns one of the candidates. -/
def Policy.ChoosesCandidates {ρ : Type} (policy : Policy ρ) : Prop :=
  ∀ (s : Store) (v : Variable) (candidates : Domain) (random : ρ), candidates.isEmpty = false →
    ∃ value rest, policy.chooseValue s v candidates random = .ok (value, rest) ∧
      value ∈ candidates

/-- What is drawn below a bound lies below it. -/
def RandomSource.DrawsBelow (ρ : Type) [RandomSource ρ] : Prop :=
  ∀ (random : ρ) (bound : Nat), 0 < bound →
    ∃ k rest, RandomSource.draw random bound = .ok (k, rest) ∧ k < bound

/-- A word scaled to a bound lies below it. -/
theorem Xoshiro.scaled_lt (word : UInt64) {bound : Nat} (h : 0 < bound) :
    word.toNat * bound / wordCount < bound := by
  rw [Nat.div_lt_iff_lt_mul (by decide), Nat.mul_comm bound]
  exact Nat.mul_lt_mul_of_pos_right word.toNat_lt h

theorem Xoshiro.sample_lt {bound : Nat} (h : 0 < bound) (attempts : Nat) (x : Xoshiro) :
    (sample bound attempts x).1 < bound := by
  induction attempts generalizing x with
  | zero => exact scaled_lt x.next.1 h
  | succ attempts ih =>
      simp only [sample]
      split
      · exact scaled_lt x.next.1 h
      · exact ih x.next.2

/-- **THE GENERATOR** draws indices below the bound, seeded or not. -/
theorem Generator.drawsBelow : RandomSource.DrawsBelow Generator := by
  intro random bound hpos
  cases random with
  | seeded state =>
      cases hsample : Xoshiro.sample bound Xoshiro.wordCount state with
      | mk index rest =>
          have hlt := Xoshiro.sample_lt hpos Xoshiro.wordCount state
          rw [hsample] at hlt
          refine ⟨index, .seeded rest, ?_, hlt⟩
          simp only [RandomSource.draw, draw, Xoshiro.drawFrom, if_pos hpos, Nat.sub_zero,
            Nat.zero_add, hsample]
  | scripted choices position =>
      refine ⟨((choices[position % choices.size]?).getD 0) % bound,
        .scripted choices (position + 1), ?_, Nat.mod_lt _ hpos⟩
      simp only [RandomSource.draw, draw, if_neg (Nat.pos_iff_ne_zero.mp hpos)]

/-- **THE CHOSEN VALUE** is one of the candidates. -/
theorem ValueChoice.choose_mem {ρ : Type} [RandomSource ρ] (hrandom : RandomSource.DrawsBelow ρ)
    (choice : ValueChoice) {candidates : Domain} (h : candidates.isEmpty = false) (random : ρ) :
    ∃ value rest, choice.choose candidates random = .ok (value, rest) ∧ value ∈ candidates := by
  have hne := Domain.inhabited_of_not_isEmpty h
  cases choice with
  | inDomainMin => exact ⟨_, _, rfl, Domain.lowerBound_mem hne⟩
  | inDomainMax => exact ⟨_, _, rfl, Domain.upperBound_mem hne⟩
  | inDomainRandom =>
      have hpos : 0 < candidates.size := by
        obtain ⟨x, hx⟩ := hne
        rw [← Domain.length_values]
        exact List.length_pos_of_mem (Domain.mem_values.mpr hx)
      obtain ⟨k, rest, hdraw, hk⟩ := hrandom random candidates.size hpos
      have hlt : k < candidates.values.length := by rwa [Domain.length_values]
      have hnth : candidates.nth? k = some candidates.values[k] := by
        rw [Domain.nth?_eq, List.getElem?_eq_getElem hlt]
      refine ⟨candidates.values[k], rest, ?_, Domain.mem_values.mp (List.getElem_mem hlt)⟩
      simp only [choose, hdraw, hnth]

/-- A built-in policy chooses candidates, if what it draws lies below the bound. -/
theorem Policy.choosesCandidates_of {ρ : Type} [RandomSource ρ]
    (hrandom : RandomSource.DrawsBelow ρ) (onVariable : VariableChoice) (onValue : ValueChoice) :
    (Policy.of onVariable onValue : Policy ρ).ChoosesCandidates :=
  fun _ _ _ random h => onValue.choose_mem hrandom h random

end ConstraintSolver
