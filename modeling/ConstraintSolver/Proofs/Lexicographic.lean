import Mathlib.Data.Set.Insert
import ConstraintSolver.Proofs.Arising
import ConstraintSolver.Proofs.Chart

/-! # Lexicographic order — in which order solutions come

    A search that branches on the variables in the order of the scope, and
    tries the smallest value first, reports its solutions in lexicographic
    order; if it tries the largest value first, it reports them in the
    opposite order.

    Propagation may fix the variables in any order, so nothing is to be seen
    of this at a single solution.  But two solutions come from two parts of
    a region, and where the region was split, all variables of the scope
    before the variable of the choice point were fixed; so the two solutions
    differ there for the first time, and the one that is found first has the
    value that was tried first (`precedes_split`).  What has been told and
    the regions that are left are a sequence, the newest region first, and
    splitting a region keeps the sequence sorted (`lexicographic_right`). -/

namespace ConstraintSolver

open Constraint Store

/-! ## The order of tuples -/

namespace ValueOrder

/-- The one value comes before the other. -/
def Before : ValueOrder → Int → Int → Prop
  | increasing, x, y => x < y
  | decreasing, x, y => y < x

/-- Where the two tuples differ for the first time, the value of the one comes before
    the value of the other. -/
def Ahead (order : ValueOrder) (xs ys : List Int) : Prop :=
  ∃ common x y rest rest', xs = common ++ x :: rest ∧ ys = common ++ y :: rest' ∧
    order.Before x y

/-- After a common beginning, the first difference decides. -/
theorem append_lt_append {x y : Int} (h : x < y) (common rest rest' : List Int) :
    common ++ x :: rest < common ++ y :: rest' := by
  induction common with
  | nil => exact List.cons_lt_cons_iff.mpr (.inl h)
  | cons z common ih => exact List.cons_lt_cons_iff.mpr (.inr ⟨rfl, ih⟩)

theorem lt_of_ahead {xs ys : List Int} (h : increasing.Ahead xs ys) : xs < ys := by
  obtain ⟨common, x, y, rest, rest', rfl, rfl, hxy⟩ := h
  exact append_lt_append hxy common rest rest'

theorem gt_of_ahead {xs ys : List Int} (h : decreasing.Ahead xs ys) : ys < xs := by
  obtain ⟨common, x, y, rest, rest', rfl, rfl, hxy⟩ := h
  exact append_lt_append hxy common rest' rest

/-- The first candidate comes before the others. -/
theorem first_before (order : ValueOrder) {d : Domain} {x : Int} (hx : x ∈ d)
    (hne : x ≠ order.first d) : order.Before (order.first d) x := by
  cases order with
  | increasing => exact Int.lt_iff_le_and_ne.mpr ⟨Domain.lowerBound_le hx, hne.symm⟩
  | decreasing => exact Int.lt_iff_le_and_ne.mpr ⟨Domain.le_upperBound hx, hne⟩

/-- All tuples of the one set come before all of the other. -/
def Precedes (order : ValueOrder) (A B : Set (List Int)) : Prop :=
  ∀ xs ∈ A, ∀ ys ∈ B, order.Ahead xs ys

end ValueOrder

/-! ## The sequence of what is told and what is left -/

/-- The tuples that are drawn from a family for the scope. -/
def Family.tuples (F : Family) (scope : List Variable) : Set (List Int) :=
  {xs | ∃ σ, F.Draws scope σ ∧ xs = scope.map σ}

/-- A smaller family has fewer tuples. -/
theorem Family.tuples_mono {F G : Family} (h : F ≤ G) (scope : List Variable) :
    F.tuples scope ⊆ G.tuples scope := by
  rintro xs ⟨σ, hσ, rfl⟩
  exact ⟨σ, hσ.mono h, rfl⟩

/-- The tuples that have been reported, and then those of the regions. -/
def tupleSequence (scope : List Variable) (reported : List Solution) (regions : List Family) :
    List (Set (List Int)) :=
  (reported.map fun x => {x.values}) ++ regions.map fun F => F.tuples scope

namespace ValueOrder

variable {order : ValueOrder} {before after : List (Set (List Int))} {A B : Set (List Int)}

/-- A set of tuples may be replaced by parts of it that are in order. -/
theorem pairwise_refine (h : (before ++ A :: after).Pairwise order.Precedes)
    {parts : List (Set (List Int))} (hle : ∀ B ∈ parts, B ⊆ A)
    (hparts : parts.Pairwise order.Precedes) :
    (before ++ (parts ++ after)).Pairwise order.Precedes := by
  obtain ⟨hbefore, hafter, hacross⟩ := List.pairwise_append.mp h
  obtain ⟨hhead, htail⟩ := List.pairwise_cons.mp hafter
  refine List.pairwise_append.mpr ⟨hbefore, ?_, fun D hD E hE => ?_⟩
  · exact List.pairwise_append.mpr
      ⟨hparts, htail, fun B hB E hE xs hxs => hhead E hE xs (hle B hB hxs)⟩
  · rcases List.mem_append.mp hE with hE | hE
    · exact fun xs hxs ys hys => hacross D hD A List.mem_cons_self xs hxs ys (hle E hE hys)
    · exact hacross D hD E (List.mem_cons_of_mem A hE)

/-- It may be replaced by one part of it. -/
theorem pairwise_shrink (h : (before ++ A :: after).Pairwise order.Precedes) (hB : B ⊆ A) :
    (before ++ B :: after).Pairwise order.Precedes :=
  pairwise_refine h (fun _ hC => List.mem_singleton.mp hC ▸ hB) (List.pairwise_singleton _ B)

end ValueOrder

/-! ## The chart -/

/-- All variables of the scope before the one of the choice point are fixed. -/
structure Leading (scope : List Variable) (E : Domains) (choice : ChoicePoint) : Prop where
  candidates : choice.remaining ≤ E.get choice.var
  earlier : ∃ earlier later, scope = earlier ++ choice.var :: later ∧
    ∀ w ∈ earlier, (E.get w).isFixed = true

/-- What is told and what is left is in lexicographic order; what is told is about the
    scope. -/
def lexicographic (order : ValueOrder) (scope : List Variable) : Chart where
  place _ := True
  choice := Leading scope
  left reported regions :=
    (tupleSequence scope reported regions).Pairwise order.Precedes ∧
      ∀ x ∈ reported, x.entries.map Assigned.var = scope

/-- What comes before the first unfixed variable is fixed. -/
theorem VariableChoice.firstUnfixed_leading {s : Store} {v : Variable} {vs : List Variable}
    (h : firstUnfixed s vs = .ok (some v)) :
    ∃ earlier later, vs = earlier ++ v :: later ∧
      ∀ w ∈ earlier, (s.domain w).isFixed = true := by
  induction vs with
  | nil => cases h
  | cons w vs ih =>
      rw [firstUnfixed] at h
      split at h
      · cases h
      · split at h
        · rename_i hfix
          obtain ⟨earlier, later, rfl, hall⟩ := ih h
          exact ⟨w :: earlier, later, rfl, List.forall_mem_cons.mpr ⟨hfix, hall⟩⟩
        · cases h
          exact ⟨[], vs, rfl, List.forall_mem_nil _⟩

/-- **WHERE TWO SOLUTIONS PART**: what is drawn with the first candidate comes before
    what is drawn without it. -/
theorem precedes_split {order : ValueOrder} {scope : List Variable} {E : Domains}
    {choice : ChoicePoint} (h : Leading scope E choice)
    (hcandidate : order.first choice.remaining ∈ choice.remaining) :
    order.Precedes
      ((Family.narrowed E.get choice.var
        ((E.get choice.var).prune (.exactly (order.first choice.remaining)))).tuples scope)
      ((Family.narrowed E.get choice.var
        (choice.remaining.prune (.except (order.first choice.remaining)))).tuples scope) := by
  obtain ⟨earlier, later, hscope, hfixed⟩ := h.earlier
  have hvar : choice.var ∈ scope := hscope ▸ List.mem_append_right _ List.mem_cons_self
  have hfirst := h.candidates _ hcandidate
  rintro _ ⟨σ, hσ, rfl⟩ _ ⟨σ', hσ', rfl⟩
  obtain ⟨hdraw, hvalue⟩ := (Family.draws_narrowed_iff (Domain.prune_le _ _) hvar).mp hσ
  obtain ⟨hdraw', hvalue'⟩ :=
    (Family.draws_narrowed_iff ((Domain.prune_le _ _).trans h.candidates) hvar).mp hσ'
  obtain ⟨hmem, hne⟩ := Domain.mem_prune.mp hvalue'
  -- both give the same values to the variables that were fixed
  have hcommon : earlier.map σ' = earlier.map σ := by
    refine List.map_congr_left fun w hw => ?_
    obtain ⟨x, _, hx⟩ := Domain.isFixed_iff.mp (hfixed w hw)
    have hw' : w ∈ scope := hscope ▸ List.mem_append_left _ hw
    rw [hx _ (hdraw w hw'), hx _ (hdraw' w hw')]
  refine ⟨earlier.map σ, σ choice.var, σ' choice.var, later.map σ, later.map σ', ?_, ?_, ?_⟩
  · rw [hscope, List.map_append, List.map_cons]
  · rw [hscope, List.map_append, List.map_cons, hcommon]
  · rw [(mem_prune_exactly hfirst).mp hvalue]
    exact order.first_before hmem hne

namespace Search

variable {ρ τ : Type} [RandomSource ρ] {order : ValueOrder} {scope : List Variable} {t : Store}

/-- Reading a solution takes that all of the scope is fixed. -/
theorem isFixed_of_read {entries : List Assigned} (h : readSolution t scope = .ok entries) :
    ∀ v ∈ scope, (t.domain v).isFixed = true := by
  induction scope generalizing entries with
  | nil => exact fun v hv => nomatch hv
  | cons v scope ih =>
      rw [readSolution] at h
      split at h
      · cases h
      · rename_i value hvalue
        split at h
        · cases h
        · rename_i rest hrest
          exact List.forall_mem_cons.mpr ⟨Option.isSome_iff_exists.mpr ⟨value, hvalue⟩, ih hrest⟩

/-- What is read is the one assignment of the scope that the domains allow. -/
theorem read_restriction {x : Solution} (h : readSolution t scope = .ok x.entries) :
    ∃ σ, Family.Draws t.domains.get scope σ ∧ x = t.restriction scope σ := by
  have hfixed := isFixed_of_read h
  refine ⟨fun v => (t.domain v).lowerBound, fun v hv => ?_, ?_⟩
  · exact Domain.lowerBound_mem (inhabited_of_isFixed (hfixed v hv))
  · have hread : readSolution t scope =
        .ok (t.restriction scope fun v => (t.domain v).lowerBound).entries := by
      refine readSolution_eq fun v hv => ?_
      obtain ⟨y, hy⟩ := Option.isSome_iff_exists.mp (hfixed v hv)
      obtain ⟨hmem, honly⟩ := Domain.fixedValue?_eq_some.mp hy
      rw [hy, honly _ (Domain.lowerBound_mem ⟨y, hmem⟩)]
    rw [h] at hread
    exact congrArg Solution.mk (Except.ok.inj hread)

/-- **THE CHART IS RIGHT** about a search that branches in the order of the scope and
    tries the values in this order. -/
theorem lexicographic_right (order : ValueOrder) (base : Store) (scope : List Variable) :
    (lexicographic order scope).Right (Policy.of .inputOrder order.choice : Policy ρ) base
      scope where
  propagated _ _ := trivial
  opened _ _ chosen := ⟨le_refl _, VariableChoice.firstUnfixed_leading chosen⟩
  resettled known hget _ hvar hle := by
    obtain ⟨earlier, later, hscope, hfixed⟩ := known.earlier
    refine ⟨?_, earlier, later, hvar ▸ hscope, hget ▸ hfixed⟩
    rw [hvar, hget]
    exact hle.trans known.candidates
  tried _ _ := trivial
  shrunk left hle := ⟨ValueOrder.pairwise_shrink left.1 (Family.tuples_mono hle scope), left.2⟩
  dropped left :=
    ⟨left.1.sublist ((List.sublist_cons_self _ _).append_left _), left.2⟩
  split {xs t choice value random random' regions} known chosen candidate left := by
    have hchoose : (Policy.of .inputOrder order.choice : Policy ρ).chooseValue t choice.var
        choice.remaining random = .ok (order.first choice.remaining, random) :=
      order.choose_eq choice.remaining random
    rw [hchoose] at chosen
    cases chosen
    -- the region is split in two, and the tuples with the chosen value come first
    have hfirst := known.candidates _ candidate
    refine ⟨ValueOrder.pairwise_refine left.1 (fun B hB => ?_)
      (List.pairwise_pair.mpr (precedes_split known candidate)), left.2⟩
    rcases List.mem_pair.mp hB with rfl | rfl
    · refine Family.tuples_mono (Family.narrowed_mono _ fun x hx => ?_) scope
      rw [(mem_prune_exactly hfirst).mp hx]
      exact candidate
    · exact Family.tuples_mono (Family.narrowed_mono _ (Domain.prune_le _ _)) scope
  reported {xs t x regions} read left := by
    obtain ⟨σ, hσ, rfl⟩ := read_restriction read
    have htuple : ({(t.restriction scope σ).values} : Set (List Int)) ⊆
        Family.tuples t.domains.get scope := by
      rw [Set.singleton_subset_iff, values_restriction]
      exact ⟨σ, hσ, rfl⟩
    refine ⟨?_, fun y hy => ?_⟩
    · have hshrunk := ValueOrder.pairwise_shrink left.1 htuple
      rwa [tupleSequence, List.map_append, List.append_assoc]
    · rcases List.mem_append.mp hy with hy | hy
      · exact left.2 y hy
      · rw [List.mem_singleton.mp hy]
        simp [restriction, Function.comp_def]

/-! ## Sessions -/

section Sessions

variable {base : Store} {goal : SearchGoal} {rule : TerminationRule τ} {begun s : Search ρ τ}
  {reported : List Solution}

/-- **IN ORDER**: the solutions are reported in the order of the values, over the scope as it was
    given. -/
theorem Session.lexicographic (order : ValueOrder)
    (h : Session (.of .inputOrder order.choice) rule begun reported s)
    (hbegun : Begun base goal begun) :
    (reported.map Solution.values).Pairwise order.Ahead ∧
      ∀ x ∈ reported, x.entries.map Assigned.var = goal.scope := by
  have hright := lexicographic_right (ρ := ρ) order base goal.scope
  have hstart : Charted (ConstraintSolver.lexicographic order goal.scope) base goal [] begun :=
    hbegun.charted trivial ⟨List.pairwise_singleton _ _, fun _ hx => nomatch hx⟩
  obtain ⟨opened, hcourse⟩ := h.course
  obtain ⟨regions, hsorted, hscope⟩ := (hcourse.charted hright hstart).left
  refine ⟨?_, hscope⟩
  -- what has been told is the beginning of the sequence
  have htold := (List.pairwise_append.mp hsorted).1
  rw [List.pairwise_map] at htold ⊢
  exact htold.imp fun h => h _ (Set.mem_singleton _) _ (Set.mem_singleton _)

/-- **SOLUTIONS COME IN LEXICOGRAPHIC ORDER.** In every store, however it has been used, a
    search over any scope of its variables can be begun. If it branches in the order of
    the scope, then at any time the tuples of the solutions it has reported, in the order
    of the scope, are strictly increasing if it tries the smallest value first, and
    strictly decreasing if it tries the largest value first; whatever the limit, whatever
    may stop it, and with variables that are repeated in the scope or not. -/
theorem solutions_in_lexicographic_order (harises : Arises base)
    (hscope : ∀ v ∈ goal.scope, base.owns v = true) (rule : TerminationRule τ) (random : ρ)
    (termination : τ) :
    ∃ begun, start goal random termination base = .ok begun ∧
      (∀ reported s, Session (.of .inputOrder .inDomainMin) rule begun reported s →
        (reported.map Solution.values).Pairwise (· < ·) ∧
          ∀ x ∈ reported, x.entries.map Assigned.var = goal.scope) ∧
      ∀ reported s, Session (.of .inputOrder .inDomainMax) rule begun reported s →
        (reported.map Solution.values).Pairwise (fun xs ys => ys < xs) ∧
          ∀ x ∈ reported, x.entries.map Assigned.var = goal.scope := by
  obtain ⟨begun, hstart, hbegun⟩ := start_begun harises.kempt.stamped hscope random termination
  refine ⟨begun, hstart, fun reported s h => ?_, fun reported s h => ?_⟩
  · obtain ⟨hsorted, hvars⟩ := h.lexicographic .increasing hbegun
    exact ⟨hsorted.imp ValueOrder.lt_of_ahead, hvars⟩
  · obtain ⟨hsorted, hvars⟩ := h.lexicographic .decreasing hbegun
    exact ⟨hsorted.imp ValueOrder.gt_of_ahead, hvars⟩

end Sessions

/-- The flag of the pair comes first and last; two solutions with the flag down. -/
theorem solutions_of_flaggedPair_in_lexicographic_order :
    ∃ (begun s : Search Generator Watch) (x y : Solution),
      start ⟨[⟨0, 2⟩, ⟨0, 0⟩, ⟨0, 2⟩], true, none⟩ (.ofSeed 7) (.new .indefinite) flaggedPair =
          .ok begun ∧
        Session (.of .inputOrder .inDomainMin) Watch.rule begun [x, y] s ∧
        x.values = [0, 0, 0] ∧ y.values = [0, 1, 0] ∧ x.values < y.values ∧
        ∀ reported s, Session (.of .inputOrder .inDomainMax) Watch.rule begun reported s →
          (reported.map Solution.values).Pairwise fun xs ys => ys < xs := by
  have hscope : ∀ v ∈ (⟨[⟨0, 2⟩, ⟨0, 0⟩, ⟨0, 2⟩], true, none⟩ : SearchGoal).scope,
      flaggedPair.owns v = true := by
    decide +kernel
  obtain ⟨begun, hstart, hmin, hmax⟩ := solutions_in_lexicographic_order
    (reached_flaggedPair fun _ => True).arises hscope Watch.rule (Generator.ofSeed 7)
    (.new .indefinite)
  let answers (b : Search Generator Watch) :=
    let first := b.next (.of .inputOrder .inDomainMin) Watch.rule
    (first.1, (first.2.next (.of .inputOrder .inDomainMin) Watch.rule).1)
  let x := flaggedPair.restriction [⟨0, 2⟩, ⟨0, 0⟩, ⟨0, 2⟩] fun _ => 0
  let y := flaggedPair.restriction [⟨0, 2⟩, ⟨0, 0⟩, ⟨0, 2⟩] fun v => if v.index = 0 then 1 else 0
  -- the first two answers, as the search computes them
  have hrun : (start ⟨[⟨0, 2⟩, ⟨0, 0⟩, ⟨0, 2⟩], true, none⟩ (Generator.ofSeed 7)
      (Watch.new .indefinite) flaggedPair).map answers =
      .ok (.ok (.solution x), .ok (.solution y)) := by
    decide +kernel
  rw [hstart] at hrun
  obtain ⟨hfirst, hsecond⟩ := Prod.mk.inj (Except.ok.inj hrun)
  have hsession : Session (.of .inputOrder .inDomainMin) Watch.rule begun [x, y] _ :=
    .next (.next .begun (Prod.ext_iff.mpr ⟨hfirst, rfl⟩)) (Prod.ext_iff.mpr ⟨hsecond, rfl⟩)
  have hsorted := (hmin _ _ hsession).1
  exact ⟨begun, _, x, y, hstart, hsession, by decide +kernel, by decide +kernel,
    List.pairwise_pair.mp hsorted, fun reported s h => (hmax reported s h).1⟩

end Search

end ConstraintSolver
