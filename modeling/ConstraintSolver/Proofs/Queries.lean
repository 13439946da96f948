import ConstraintSolver.Proofs.Removal
import Mathlib.Data.List.Sort

/-! # Queries — seven ways to read a domain

    A domain can be listed, counted, indexed, searched, asked for its ends
    and compared with another one.  Every query walks the intervals in its
    own way, and the ones which count do so in words.  `queries_agree` says
    that all of them read the same increasing list. -/

namespace ConstraintSolver

namespace Interval

variable {i : Interval}

/-- The width of an interval of words fits a long word. -/
theorem size?_eq (h : i.Valid) : i.size? = some i.size := by
  simp only [Valid] at h
  have hspan : longWord? (i.hi - i.lo) = some (i.hi - i.lo) :=
    longWord?_of_le (by omega) (by omega)
  have hcount : longWord? (i.hi - i.lo + 1) = some (i.hi - i.lo + 1) :=
    longWord?_of_le (by omega) (by omega)
  have hbits : toCounter (i.hi - i.lo + 1) = i.size := by
    simp only [minValue, maxValue] at h
    rw [toCounter_of_lt (by omega) (by simp only [longWordRange]; omega), size]
    omega
  simp only [size?, hspan, hcount, hbits, Option.bind_eq_bind, Option.bind_some]

theorem head?_values (h : i.lo ≤ i.hi) : i.values.head? = some i.lo := by
  have hpos : 0 < i.size := by unfold size; omega
  rw [List.head?_eq_getElem?]
  simp [values, hpos]

theorem getLast?_values (h : i.lo ≤ i.hi) : i.values.getLast? = some i.hi := by
  have hsize : (i.size : Int) = i.hi + 1 - i.lo := by unfold size; omega
  have hlast : i.size - 1 < i.size := by omega
  rw [List.getLast?_eq_getElem?, length_values]
  simp only [values, List.getElem?_map, List.getElem?_range hlast, Option.map_some,
    Option.some.injEq, Int.ofNat_eq_natCast]
  omega

end Interval

namespace Intervals

open ConstraintSolver.Interval

variable {l : List Interval}

/-! ## Counting -/

/-- Disjoint intervals from `lo` on hold no more integers than there are words
    from `lo` on. -/
theorem size_le_of_ge (h : Canonical l) (lo : Int) (hlo : lo ≤ maxValue + 1)
    (hall : ∀ i ∈ l, lo ≤ i.lo) : (size l : Int) ≤ maxValue + 1 - lo := by
  induction l generalizing lo with
  | nil =>
      simp only [size, Int.natCast_zero]
      omega
  | cons i rest ih =>
      obtain ⟨hi, hbefore, hrest⟩ := canonical_cons.mp h
      simp only [Valid] at hi
      have hbeyond : ∀ j ∈ rest, i.hi + 1 ≤ j.lo := by
        intro j hj
        have hij := hbefore j hj
        simp only [Before] at hij
        omega
      have htail := ih hrest (i.hi + 1) (by omega) hbeyond
      have hfirst := hall i List.mem_cons_self
      have hwidth : (i.size : Int) = i.hi + 1 - i.lo := by unfold Interval.size; omega
      rw [size, Int.natCast_add, hwidth]
      omega

theorem size_le (h : Canonical l) : size l ≤ wordRange := by
  have hbound := size_le_of_ge h minValue (by decide) fun i hi => (h.valid i hi).1
  simp only [minValue, maxValue] at hbound
  simp only [wordRange]
  omega

/-- Adding up widths stays inside a counter as long as the sum does. -/
theorem foldlM_addSize? (hvalid : ∀ i ∈ l, i.Valid) {total : Nat}
    (h : total + size l < longWordRange) : l.foldlM addSize? total = some (total + size l) := by
  induction l generalizing total with
  | nil => rfl
  | cons i rest ih =>
      rw [size] at h
      have hsum : counter? (total + i.size) = some (total + i.size) := counter?_of_lt (by omega)
      have hstep : addSize? total i = some (total + i.size) := by
        rw [addSize?, Interval.size?_eq (hvalid i List.mem_cons_self), Option.bind_eq_bind,
          Option.bind_some, hsum]
      rw [List.foldlM_cons, hstep, Option.bind_eq_bind, Option.bind_some,
        ih (fun j hj => hvalid j (List.mem_cons_of_mem _ hj)) (by omega), size, Nat.add_assoc]

/-- **COUNTING** in words is exact. -/
theorem size?_eq (h : Canonical l) : size? l = some (size l) := by
  have hbound := size_le h
  rw [size?, foldlM_addSize? h.valid (by simp only [wordRange, longWordRange] at *; omega),
    Nat.zero_add]

/-! ## Indexing -/

/-- **INDEXING** in words loses nothing: where the casts are made, the index
    is below the width of an interval. -/
theorem nth?_eq (hvalid : ∀ i ∈ l, i.Valid) (index : Nat) :
    nth? l index = some (Domain.nthIn l index) := by
  induction l generalizing index with
  | nil => rfl
  | cons i rest ih =>
      have hi := hvalid i List.mem_cons_self
      rw [nth?, Domain.nthIn, Interval.size?_eq hi, Option.bind_eq_bind, Option.bind_some]
      simp only [Valid] at hi
      by_cases hlt : index < i.size
      · have hwidth : (i.size : Int) = i.hi + 1 - i.lo := by unfold Interval.size; omega
        -- the position lies in this interval, so neither the sum nor the casts lose anything
        have hindex : ofCounter index = index := by
          simp only [minValue, maxValue] at hi
          exact ofCounter_of_le (by simp only [wordRange]; omega)
        have hsum : longWord? (i.lo + index) = some (i.lo + index) :=
          longWord?_of_le (by simp only [minValue, maxValue] at hi ⊢; omega)
            (by simp only [minValue, maxValue] at hi ⊢; omega)
        have hcast : lowerWord (i.lo + index) = i.lo + index :=
          lowerWord_of_inRange ⟨by omega, by omega⟩
        rw [if_pos hlt, if_pos hlt, hindex, hsum, Option.bind_eq_bind, Option.bind_some, hcast]
        rfl
      · rw [if_neg hlt, if_neg hlt]
        exact ih (fun j hj => hvalid j (List.mem_cons_of_mem _ hj)) _

/-! ## The ends -/

theorem head?_flatMap_values (hvalid : ∀ i ∈ l, i.Valid) :
    (l.flatMap Interval.values).head? = l.head?.map Interval.lo := by
  cases l with
  | nil => rfl
  | cons i rest =>
      have hi := (hvalid i List.mem_cons_self).2.1
      rw [List.flatMap_cons, List.head?_append, head?_values hi]
      rfl

theorem getLast?_flatMap_values (hvalid : ∀ i ∈ l, i.Valid) :
    (l.flatMap Interval.values).getLast? = l.getLast?.map Interval.hi := by
  induction l with
  | nil => rfl
  | cons i rest ih =>
      have hi := (hvalid i List.mem_cons_self).2.1
      rw [List.flatMap_cons, List.getLast?_append,
        ih fun j hj => hvalid j (List.mem_cons_of_mem _ hj), getLast?_values hi]
      cases rest with
      | nil => rfl
      | cons j rest =>
          rw [List.getLast?_cons_cons, List.getLast?_cons]
          rfl

end Intervals

namespace Domain

variable {d e : Domain}

theorem fixedValue?_eq_some_iff_values {v : Int} : d.fixedValue? = some v ↔ d.values = [v] := by
  rw [fixedValue?_eq_some]
  constructor
  · rintro ⟨hv, hall⟩
    refine (values_ascending d).eq_of_mem_iff (List.pairwise_singleton ..) fun w => ?_
    rw [mem_values, List.mem_singleton]
    exact ⟨hall w, fun h => h ▸ hv⟩
  · intro h
    have hmem : ∀ w, w ∈ d ↔ w = v := by
      intro w
      rw [← mem_values, h, List.mem_singleton]
    exact ⟨(hmem v).mpr rfl, fun w => (hmem w).mp⟩

/-- An intersection which is not reported as empty has a member. -/
theorem overlaps_iff_not_emptied :
    d.overlaps e = true ↔
      (Intervals.prune? (.within e) d.intervals).map Prod.fst ≠ some .emptied := by
  have hreport : (d.pruned (.within e)).1 = .emptied ↔ ∀ w, w ∉ d ∩ e := effect_eq_emptied_iff
  rw [Intervals.prune?_eq, Option.map_some, ne_eq, Option.some.injEq, hreport, overlaps_iff]
  simp only [mem_inter]
  push Not
  rfl

/-- **THE QUERIES AGREE**: all of them read one increasing list.  Counting it,
    indexing it, searching it, asking for its ends or for its only element
    and looking for a common element give what the list says, in arithmetic
    that never overflows. -/
theorem queries_agree (d e : Domain) :
    d.values.Pairwise (· < ·) ∧ (∀ v, v ∈ d.values ↔ v ∈ d) ∧
      (Intervals.size? d.intervals = some d.values.length ∧ d.size = d.values.length ∧
        d.values.length ≤ wordRange) ∧
      (∀ index, Intervals.nth? d.intervals index = some d.values[index]? ∧
        d.nth? index = d.values[index]? ∧ (d.nth? index = none ↔ d.size ≤ index)) ∧
      (∀ v, ((Intervals.positionOf d.intervals v).isSome = true ↔ v ∈ d.values) ∧
        (d.contains v = true ↔ v ∈ d.values)) ∧
      (d.min? = d.values.head? ∧ d.max? = d.values.getLast? ∧
        ∀ v, d.fixedValue? = some v ↔ d.values = [v]) ∧
      (d.overlaps e = true ↔ ∃ v ∈ d.values, v ∈ e.values) ∧
      (d.overlaps e = true ↔
        (Intervals.prune? (.within e) d.intervals).map Prod.fst ≠ some .emptied) := by
  have hvalid := d.canonical.valid
  refine ⟨values_ascending d, fun v => mem_values, ⟨?_, (length_values d).symm, ?_⟩,
    fun index => ⟨?_, nth?_eq d index, ?_⟩, fun v => ⟨?_, ?_⟩,
    ⟨?_, ?_, fun v => fixedValue?_eq_some_iff_values⟩, ?_, overlaps_iff_not_emptied⟩
  · rw [length_values]
    exact Intervals.size?_eq d.canonical
  · rw [length_values]
    exact Intervals.size_le d.canonical
  · rw [Intervals.nth?_eq hvalid, ← nth?_eq]
    rfl
  · rw [nth?_eq, List.getElem?_eq_none_iff, length_values]
  · rw [mem_values, Option.isSome_iff_ne_none, ne_eq, Intervals.positionOf_eq_none_iff d.canonical,
      not_not]
    rfl
  · rw [mem_values, contains_iff]
  · exact (Intervals.head?_flatMap_values hvalid).symm
  · exact (Intervals.getLast?_flatMap_values hvalid).symm
  · rw [overlaps_iff]
    simp only [mem_values]

end Domain

end ConstraintSolver
