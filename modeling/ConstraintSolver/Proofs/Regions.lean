import ConstraintSolver.Proofs.Fixpoint
import ConstraintSolver.Solution

/-! # Regions — what a search has reported, and what it still has to look at

    At any moment a search has reported some solutions, and a list of regions
    is left to look at: families of domains inside those it began with.
    Every solution of the store has been reported or lies in one of the
    regions; no assignment of the scope lies in two of them, or lies in one
    and has been reported (`Explores`).

    A search looks at one region at a time.  It replaces the region by parts
    of it which hold all its solutions (`Explores.refine`), or reports the
    only assignment of the scope in it (`Explores.report`).  When no region
    is left, every solution has been reported (`Explores.complete`). -/

namespace ConstraintSolver

/-- The part of an assignment that is about the scope, as a solution of the
    store. -/
def Store.restriction (s : Store) (scope : List Variable) (σ : Assignment) : Solution :=
  ⟨scope.map fun v => ⟨v, s.name v, σ v⟩⟩

namespace Store

variable {s : Store} {scope : List Variable} {σ τ : Assignment}

theorem values_restriction (s : Store) (scope : List Variable) (σ : Assignment) :
    (s.restriction scope σ).values = scope.map σ := by
  simp [restriction, Solution.values, Function.comp_def]

theorem restriction_congr (h : ∀ v ∈ scope, σ v = τ v) :
    s.restriction scope σ = s.restriction scope τ := by
  simp only [restriction, Solution.mk.injEq]
  exact List.map_congr_left fun v hv => by rw [h v hv]

/-- Restrictions with the same values are the same. -/
theorem restriction_eq_of_values
    (h : (s.restriction scope σ).values = (s.restriction scope τ).values) :
    s.restriction scope σ = s.restriction scope τ := by
  rw [values_restriction, values_restriction, List.map_inj_left] at h
  exact restriction_congr h

end Store

/-- No assignment of the scope lies in both families. -/
def Family.Apart (scope : List Variable) (F G : Family) : Prop :=
  ∀ σ, ¬ (F.Draws scope σ ∧ G.Draws scope σ)

theorem Family.Apart.mono {scope : List Variable} {F G F' G' : Family} (h : F.Apart scope G)
    (hF : F' ≤ F) (hG : G' ≤ G) : F'.Apart scope G' :=
  fun σ hσ => h σ ⟨hσ.1.mono hF, hσ.2.mono hG⟩

/-- **WHAT A SEARCH KNOWS** after it has reported some solutions, when some regions
    are left. -/
structure Explores (base : Store) (scope : List Variable) (reported : List Solution)
    (regions : List Family) : Prop where
  /-- Every solution has been reported, or lies in a region that is left. -/
  covered : base.failure = none → ∀ σ, base.SolvedBy σ →
    base.restriction scope σ ∈ reported ∨ ∃ F ∈ regions, F.Draws base.allVariables σ
  inside : ∀ F ∈ regions, F ≤ base.domains.get
  apart : regions.Pairwise (Family.Apart scope)
  /-- What has been reported lies in none of the regions. -/
  fresh : ∀ F ∈ regions, ∀ σ, F.Draws scope σ → base.restriction scope σ ∉ reported
  sound : ∀ x ∈ reported, ∃ σ, base.SolvedBy σ ∧ x = base.restriction scope σ
  once : reported.Nodup

namespace Explores

variable {base : Store} {scope : List Variable} {reported : List Solution} {F : Family}
  {regions : List Family}

/-- At first nothing has been reported, and everything is left. -/
theorem start (base : Store) (scope : List Variable) :
    Explores base scope [] [base.domains.get] where
  covered _ _ hσ := .inr ⟨base.domains.get, List.mem_singleton_self _, hσ.1⟩
  inside _ hG := List.mem_singleton.mp hG ▸ le_refl _
  apart := List.pairwise_singleton _ _
  fresh _ _ _ _ := List.not_mem_nil
  sound _ hx := nomatch hx
  once := List.nodup_nil

/-- **LOOKING CLOSER**: a region is replaced by parts of it which are apart and hold
    all its solutions. -/
theorem refine (h : Explores base scope reported (F :: regions)) (parts : List Family)
    (hle : ∀ G ∈ parts, G ≤ F) (hapart : parts.Pairwise (Family.Apart scope))
    (hall : base.failure = none → ∀ σ, base.SolvedBy σ → F.Draws base.allVariables σ →
      ∃ G ∈ parts, G.Draws base.allVariables σ) :
    Explores base scope reported (parts ++ regions) := by
  have hF := h.inside F List.mem_cons_self
  obtain ⟨hhead, htail⟩ := List.pairwise_cons.mp h.apart
  refine ⟨fun hf σ hσ => ?_, fun G hG => ?_, ?_, fun G hG σ hσ => ?_, h.sound, h.once⟩
  · rcases h.covered hf σ hσ with hdone | ⟨G, hG, hdraw⟩
    · exact Or.inl hdone
    · refine Or.inr ?_
      rcases List.mem_cons.mp hG with rfl | hG
      · obtain ⟨H, hH, hdraw'⟩ := hall hf σ hσ hdraw
        exact ⟨H, List.mem_append_left _ hH, hdraw'⟩
      · exact ⟨G, List.mem_append_right _ hG, hdraw⟩
  · rcases List.mem_append.mp hG with hG | hG
    · exact (hle G hG).trans hF
    · exact h.inside G (List.mem_cons_of_mem F hG)
  -- a part is apart from the other regions because the whole is
  · refine List.pairwise_append.mpr ⟨hapart, htail, fun G hG H hH => ?_⟩
    exact (hhead H hH).mono (hle G hG) (le_refl H)
  · rcases List.mem_append.mp hG with hG | hG
    · exact h.fresh F List.mem_cons_self σ (hσ.mono (hle G hG))
    · exact h.fresh G (List.mem_cons_of_mem F hG) σ hσ

/-- A region which has shrunk without losing solutions. -/
theorem shrink (h : Explores base scope reported (F :: regions)) {G : Family} (hle : G ≤ F)
    (hall : ∀ σ, base.SolvedBy σ → F.Draws base.allVariables σ → G.Draws base.allVariables σ) :
    Explores base scope reported (G :: regions) := by
  refine h.refine [G] (fun H hH => List.mem_singleton.mp hH ▸ hle)
    (List.pairwise_singleton _ _) fun _ σ hσ hdraw => ?_
  exact ⟨G, List.mem_singleton_self G, hall σ hσ hdraw⟩

/-- A region without solutions is dropped. -/
theorem drop (h : Explores base scope reported (F :: regions))
    (hnone : base.failure = none → ∀ σ, base.SolvedBy σ → ¬ F.Draws base.allVariables σ) :
    Explores base scope reported regions :=
  h.refine [] (fun _ hG => nomatch hG) List.Pairwise.nil
    fun hf σ hσ hdraw => absurd hdraw (hnone hf σ hσ)

/-- **TRYING A VALUE** of a variable of the scope: the region falls into the part with
    the value, and the part with the others. -/
theorem split {v : Variable} {d : Domain} {value : Int} (hd : d ≤ F v)
    (h : Explores base scope reported (F.narrowed v d :: regions)) (hv : v ∈ scope)
    (hvs : v ∈ base.allVariables) (hmem : value ∈ d) :
    Explores base scope reported
      (F.narrowed v ((F v).prune (.exactly value)) ::
        F.narrowed v (d.prune (.except value)) :: regions) := by
  have hexactly : ∀ {x}, x ∈ (F v).prune (.exactly value) ↔ x = value :=
    Constraint.mem_prune_exactly (hd _ hmem)
  have hone : (F v).prune (.exactly value) ≤ F v := Domain.prune_le _ _
  have hrest : d.prune (.except value) ≤ F v := (Domain.prune_le _ _).trans hd
  refine h.refine [_, _] (fun G hG => ?_) ?_ fun _ σ _ hdraw => ?_
  · rcases List.mem_pair.mp hG with rfl | rfl
    · exact F.narrowed_mono fun x hx => hexactly.mp hx ▸ hmem
    · exact F.narrowed_mono (Domain.prune_le _ _)
  · refine List.pairwise_pair.mpr fun σ hσ => ?_
    have hvalue := (Family.draws_narrowed_iff hone hv).mp hσ.1
    have hother := (Family.draws_narrowed_iff hrest hv).mp hσ.2
    exact (Domain.mem_prune.mp hother.2).2 (hexactly.mp hvalue.2)
  · obtain ⟨hdraw', hσ⟩ := (Family.draws_narrowed_iff hd hvs).mp hdraw
    -- a solution goes to the part that has its value
    by_cases hvalue : σ v = value
    · refine ⟨_, List.mem_cons_self, ?_⟩
      exact (Family.draws_narrowed_iff hone hvs).mpr ⟨hdraw', hexactly.mpr hvalue⟩
    · refine ⟨_, List.mem_cons_of_mem _ (List.mem_singleton_self _), ?_⟩
      exact (Family.draws_narrowed_iff hrest hvs).mpr
        ⟨hdraw', Domain.mem_prune.mpr ⟨hσ, hvalue⟩⟩

/-- **REPORTING** the one assignment of the scope that lies in a region. -/
theorem report (h : Explores base scope reported (F :: regions)) {σ : Assignment}
    (hσ : base.SolvedBy σ) (hdraw : F.Draws base.allVariables σ)
    (hscope : ∀ v ∈ scope, v ∈ base.allVariables)
    (hfixed : ∀ v ∈ scope, ∀ x ∈ F v, x = σ v) :
    Explores base scope (reported ++ [base.restriction scope σ]) regions := by
  have hdrawn : F.Draws scope σ := fun v hv => hdraw v (hscope v hv)
  obtain ⟨hhead, htail⟩ := List.pairwise_cons.mp h.apart
  refine ⟨fun hf τ hτ => ?_, fun G hG => h.inside G (List.mem_cons_of_mem F hG), htail,
    fun G hG τ hτ hrep => ?_, fun x hx => ?_, ?_⟩
  · rcases h.covered hf τ hτ with hdone | ⟨G, hG, hdraw'⟩
    · exact Or.inl (List.mem_append_left _ hdone)
    · rcases List.mem_cons.mp hG with rfl | hG
      · refine Or.inl (List.mem_append_right _ ?_)
        rw [List.mem_singleton]
        exact Store.restriction_congr fun v hv => hfixed v hv _ (hdraw' v (hscope v hv))
      · exact Or.inr ⟨G, hG, hdraw'⟩
  · rcases List.mem_append.mp hrep with hrep | hrep
    · exact h.fresh G (List.mem_cons_of_mem F hG) τ hτ hrep
    · have heq : base.restriction scope τ = base.restriction scope σ := List.mem_singleton.mp hrep
      have hvalues := congrArg Solution.values heq
      rw [Store.values_restriction, Store.values_restriction, List.map_inj_left] at hvalues
      -- an assignment with the same values would lie in two regions
      refine hhead G hG σ ⟨hdrawn, fun v hv => ?_⟩
      rw [← hvalues v hv]
      exact hτ v hv
  · rcases List.mem_append.mp hx with hx | hx
    · exact h.sound x hx
    · exact ⟨σ, hσ, List.mem_singleton.mp hx⟩
  · refine List.nodup_append.mpr ⟨h.once, List.nodup_singleton _, ?_⟩
    rintro x hx y hy rfl
    exact h.fresh F List.mem_cons_self σ hdrawn (List.mem_singleton.mp hy ▸ hx)

/-- **NOTHING LEFT**: every solution has been reported. -/
theorem complete (h : Explores base scope reported []) (hf : base.failure = none)
    {σ : Assignment} (hσ : base.SolvedBy σ) : base.restriction scope σ ∈ reported := by
  rcases h.covered hf σ hσ with hdone | ⟨F, hF, _⟩
  · exact hdone
  · cases hF

/-- No two of the reported solutions have the same values. -/
theorem values_nodup (h : Explores base scope reported regions) :
    (reported.map Solution.values).Nodup := by
  refine List.Nodup.map_on (fun x hx y hy hxy => ?_) h.once
  obtain ⟨σ, _, rfl⟩ := h.sound x hx
  obtain ⟨τ, _, rfl⟩ := h.sound y hy
  exact Store.restriction_eq_of_values hxy

end Explores

end ConstraintSolver
