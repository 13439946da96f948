import ConstraintSolver.Domain.Basic

/-! # Pruning — taking values out of a domain

    A `Pruning` says which values a domain may keep.  Pruning keeps exactly
    those members (`mem_prune`), so it lists them in the same order
    (`values_prune`), never grows a domain, and strictly shrinks it when it
    changes it at all (`size_prune_lt`).  That last fact is what makes
    propagation terminate. -/

namespace ConstraintSolver

/-- A restriction on the values of a domain. -/
inductive Pruning where
  /-- Every value but this one. -/
  | except (v : Int)
  /-- No value below this one. -/
  | atLeast (v : Int)
  /-- No value above this one. -/
  | atMost (v : Int)
  /-- Only members of this domain. -/
  | within (e : Domain)

namespace Pruning

/-- Only this value. -/
def exactly (v : Int) : Pruning := .within (Domain.singleton v)

/-- Whether the restriction allows a value. -/
def Keeps : Pruning → Int → Prop
  | .except v, w => w ≠ v
  | .atLeast v, w => v ≤ w
  | .atMost v, w => w ≤ v
  | .within e, w => w ∈ e

instance (p : Pruning) (w : Int) : Decidable (p.Keeps w) :=
  match p with
  | .except v => inferInstanceAs (Decidable (w ≠ v))
  | .atLeast v => inferInstanceAs (Decidable (v ≤ w))
  | .atMost v => inferInstanceAs (Decidable (w ≤ v))
  | .within e => inferInstanceAs (Decidable (w ∈ e))

end Pruning

namespace Domain

/-- The members of `d` which the restriction allows. -/
def prune (d : Domain) : Pruning → Domain
  | .except v => ⟨Intervals.erase v d.intervals, Intervals.canonical_erase d.canonical⟩
  | .atLeast v => ⟨Intervals.atLeast v d.intervals, Intervals.canonical_atLeast d.canonical⟩
  | .atMost v => ⟨Intervals.atMost v d.intervals, Intervals.canonical_atMost d.canonical⟩
  | .within e => d ∩ e

/-- What a pruning leaves are the values that it keeps. -/
theorem mem_prune {d : Domain} {p : Pruning} {v : Int} :
    v ∈ d.prune p ↔ v ∈ d ∧ p.Keeps v := by
  cases p with
  | except w => exact Intervals.covers_erase
  | atLeast w => exact Intervals.covers_atLeast
  | atMost w => exact Intervals.covers_atMost
  | within e => exact mem_inter

/-- What a pruning did to a domain. -/
inductive Effect where
  /-- Nothing was removed, and there is a value left. -/
  | unchanged
  /-- Something was removed, and there is a value left. -/
  | shrunk
  /-- No value is left. -/
  | emptied
  deriving DecidableEq, Repr

/-- The effect of replacing `before` by its part `after`. -/
def effect (before after : Domain) : Effect :=
  if after.isEmpty then .emptied
  else if after = before then .unchanged
  else .shrunk

/-- Without a value left, nothing else is told. -/
theorem effect_eq_emptied {before after : Domain} :
    effect before after = .emptied ↔ after.isEmpty = true := by
  rw [effect]
  split
  · rename_i hempty
    exact iff_of_true rfl hempty
  · rename_i hempty
    refine iff_of_false ?_ hempty
    split
    · rintro ⟨⟩
    · rintro ⟨⟩

/-- Nothing is removed if and only if the domain stays as it is, with a value left. -/
theorem effect_eq_unchanged {before after : Domain} :
    effect before after = .unchanged ↔ after.isEmpty = false ∧ after = before := by
  rw [effect]
  split
  · rename_i hempty
    exact iff_of_false (fun h => nomatch h) fun h => Bool.false_ne_true (h.1.symm.trans hempty)
  · rename_i hempty
    split
    · rename_i hsame
      exact iff_of_true rfl ⟨Bool.eq_false_iff.mpr hempty, hsame⟩
    · rename_i hsame
      exact iff_of_false (fun h => nomatch h) fun h => hsame h.2

/-- The pruned domain, and what the pruning did. -/
def pruned (d : Domain) (p : Pruning) : Effect × Domain := (effect d (d.prune p), d.prune p)

/-! ## Size -/

/-- Pruning leaves out members, and keeps the others in their order. -/
theorem values_prune (d : Domain) (p : Pruning) :
    (d.prune p).values = d.values.filter fun v => decide (p.Keeps v) := by
  -- ascending lists with the same members are equal
  have hperm : (d.prune p).values.Perm (d.values.filter fun v => decide (p.Keeps v)) := by
    refine (List.perm_ext_iff_of_nodup (nodup_values _) (d.nodup_values.filter _)).mpr fun v => ?_
    rw [mem_values, mem_prune, List.mem_filter, mem_values, decide_eq_true_eq]
  exact hperm.eq_of_pairwise (fun _ _ _ _ hab hba => absurd hab (Int.lt_asymm hba))
    (values_ascending _) ((values_ascending d).filter _)

theorem size_prune_le (d : Domain) (p : Pruning) : (d.prune p).size ≤ d.size := by
  rw [← length_values, ← length_values, values_prune]
  exact List.length_filter_le ..

theorem size_prune_lt {d : Domain} {p : Pruning} (h : d.prune p ≠ d) :
    (d.prune p).size < d.size := by
  rcases Nat.lt_or_ge (d.prune p).size d.size with hlt | hge
  · exact hlt
  · rw [← length_values, ← length_values, values_prune] at hge
    have hall := List.length_filter_eq_length_iff.mp
      (Nat.le_antisymm (List.length_filter_le ..) hge)
    refine absurd (ext fun v => ?_) h
    rw [mem_prune]
    refine ⟨And.left, fun hv => ⟨hv, ?_⟩⟩
    exact of_decide_eq_true (hall v (mem_values.mpr hv))

theorem prune_empty (p : Pruning) : (∅ : Domain).prune p = ∅ :=
  ext fun v => mem_prune.trans ⟨And.left, fun h => absurd h (not_mem_empty v)⟩

end Domain

end ConstraintSolver
