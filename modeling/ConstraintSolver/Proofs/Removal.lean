import Mathlib.Data.List.Basic
import ConstraintSolver.Domain.Words
import ConstraintSolver.Proofs.Family

/-! # Removal — pruning a domain in words

    A mutation of a domain looks the integer up by halving the list, changes
    the one interval which holds it, and reports what the path it took says.
    `prune?_eq` shows that this is the pruning of the library: every sum fits
    its word, the assertion on the result holds, and the report tells
    exactly whether the set became smaller or empty.

    The argument is one lemma for each way a mutation can go: an interval is
    taken apart in place (`erase_append_cons`), or the intervals on one side
    of a bound go and the one at the bound is cut. -/

namespace ConstraintSolver

namespace Intervals

open ConstraintSolver.Interval

variable {l : List Interval} {v : Int}

/-! ## Looking an integer up -/

/-- Intervals further back in a canonical list lie further up. -/
theorem hi_lt_lo_of_lt (h : Canonical l) {j k : Nat} (hjk : j < k) (hk : k < l.length) :
    l[j].hi + 1 < l[k].lo :=
  List.pairwise_iff_getElem.mp h.apart j k (by omega) hk hjk

theorem lo_le_hi_getElem (h : Canonical l) {k : Nat} (hk : k < l.length) : l[k].lo ≤ l[k].hi :=
  (h.valid l[k] (List.getElem_mem hk)).2.1

/-- A value is on neither side of an interval exactly if it is a member. -/
theorem side_eq_eq_iff {i : Interval} : i.side v = .eq ↔ v ∈ i := by
  unfold side
  rw [Interval.mem_def]
  split
  · simp only [reduceCtorEq, false_iff]; omega
  · split
    · simp only [reduceCtorEq, false_iff]; omega
    · simp only [true_iff]; omega

/-- The interval that is found contains the value. -/
theorem mem_of_seek {start stop k : Nat} {h : stop ≤ l.length}
    (hk : seek l v start stop h = some k) : ∃ hlt : k < l.length, v ∈ l[k] := by
  fun_induction seek l v start stop h with
  | case1 start stop h hlt hmiddle hside ih => exact ih hk
  | case2 start stop h hlt hmiddle hside =>
      obtain rfl := Option.some.inj hk
      exact ⟨hmiddle, side_eq_eq_iff.mp hside⟩
  | case3 start stop h hlt hmiddle hside ih => exact ih hk
  | case4 start stop h hlt => cases hk

/-- Where nothing is found, no interval of the range holds the integer: what
    lies below the middle one ends below it, and what lies above starts above
    it. -/
theorem not_mem_of_seek (hl : Canonical l) {start stop : Nat} {h : stop ≤ l.length}
    (hnone : seek l v start stop h = none) {k : Nat} (hk : k < l.length) (hstart : start ≤ k)
    (hstop : k < stop) : v ∉ l[k] := by
  fun_induction seek l v start stop h with
  | case1 start stop h hlt hmiddle hside ih =>
      by_cases hle : start + (stop - start) / 2 + 1 ≤ k
      · exact ih hnone hle hstop
      -- the interval in the middle is below the value, and so are those before it
      · have hbelow : l[start + (stop - start) / 2].hi < v := by
          unfold side at hside
          split at hside
          · assumption
          · split at hside <;> cases hside
        have hval := lo_le_hi_getElem hl hmiddle
        rw [Interval.mem_def]
        rcases Nat.lt_or_eq_of_le (Nat.le_of_lt_succ (Nat.not_le.mp hle)) with hless | rfl
        · have := hi_lt_lo_of_lt hl hless hmiddle
          omega
        · omega
  | case2 start stop h hlt hmiddle hside => cases hnone
  | case3 start stop h hlt hmiddle hside ih =>
      by_cases hle : k < start + (stop - start) / 2
      · exact ih hnone hstart hle
      -- the interval in the middle is above the value, and so are those after it
      · have habove : v < l[start + (stop - start) / 2].lo := by
          unfold side at hside
          split at hside
          · cases hside
          · split at hside
            · assumption
            · cases hside
        have hval := lo_le_hi_getElem hl hmiddle
        rw [Interval.mem_def]
        rcases Nat.lt_or_eq_of_le (Nat.not_lt.mp hle) with hless | rfl
        · have := hi_lt_lo_of_lt hl hless hk
          omega
        · omega
  | case4 start stop h hlt => omega

/-- **LOOKING UP** finds an interval exactly when one holds the integer. -/
theorem positionOf_eq_none_iff (hl : Canonical l) : positionOf l v = none ↔ ¬ Covers l v := by
  constructor
  · rintro hnone ⟨i, hi, hv⟩
    obtain ⟨k, hk, rfl⟩ := List.getElem_of_mem hi
    exact not_mem_of_seek hl hnone hk (Nat.zero_le k) hk hv
  · intro hno
    cases hpos : positionOf l v with
    | none => rfl
    | some k =>
        obtain ⟨hk, hv⟩ := mem_of_seek hpos
        exact absurd ⟨l[k], List.getElem_mem hk, hv⟩ hno

/-- The list around the position that was found. -/
theorem split_of_positionOf {k : Nat} (h : positionOf l v = some k) :
    ∃ below i above, l = below ++ i :: above ∧ below.length = k ∧ v ∈ i := by
  obtain ⟨hk, hv⟩ := mem_of_seek h
  refine ⟨l.take k, l[k], l.drop (k + 1), ?_, by simp; omega, hv⟩
  rw [List.getElem_cons_drop, List.take_append_drop]

/-! ## The assertion on the result -/

theorem apart?_of_canonical : ∀ {l : List Interval}, Canonical l → apart? l = some true
  | [], _ => rfl
  | [_], _ => rfl
  | a :: b :: rest, h => by
      obtain ⟨ha, hbefore, hrest⟩ := canonical_cons.mp h
      have hab : a.hi + 1 < b.lo := hbefore b List.mem_cons_self
      have hsum : longWord? (a.hi + 1) = some (a.hi + 1) :=
        longWord?_succ ⟨Int.le_trans ha.1 ha.2.1, ha.2.2⟩
      rw [apart?, hsum]
      simp only [Option.bind_eq_bind, Option.bind_some, if_pos hab]
      exact apart?_of_canonical hrest

/-- The assertion that a list is normalised holds of canonical lists. -/
theorem normalised?_of_canonical (h : Canonical l) : normalised? l = some true := by
  have hall : (l.all fun i => i.lo ≤ i.hi) = true := by
    rw [List.all_eq_true]
    intro i hi
    exact decide_eq_true (h.valid i hi).2.1
  rw [normalised?, if_pos hall, apart?_of_canonical h]

/-- The report on a canonical list says whether it is empty. -/
theorem report?_of_canonical (h : Canonical l) :
    report? l = some (if l.isEmpty then .emptied else .shrunk, l) := by
  rw [report?, normalised?_of_canonical h]
  rfl

end Intervals

namespace Domain

variable {d : Domain} {p : Pruning}

/-- A list which is the pruned domain, and another than before, is reported as
    such. -/
theorem report?_of_pruned {l : List Interval} (hl : l = (d.prune p).intervals)
    (hne : d.prune p ≠ d) :
    Intervals.report? l = some ((d.pruned p).1, (d.pruned p).2.intervals) := by
  subst hl
  rw [Intervals.report?_of_canonical (d.prune p).canonical, pruned, effect, if_neg hne]
  rfl

/-- Nothing can be taken away from an empty domain. -/
theorem pruned_of_isEmpty (h : d.intervals.isEmpty = true) :
    some (Effect.emptied, d.intervals) = some ((d.pruned p).1, (d.pruned p).2.intervals) := by
  have hd : d = ∅ := ext fun v => iff_of_false (isEmpty_iff.mp h v) (not_mem_empty v)
  subst hd
  rw [pruned, effect, prune_empty]
  rfl

/-- Nothing is taken away if every value is kept. -/
theorem pruned_of_kept (hne : ¬ d.intervals.isEmpty = true) (h : ∀ v ∈ d, p.Keeps v) :
    some (Effect.unchanged, d.intervals) = some ((d.pruned p).1, (d.pruned p).2.intervals) := by
  have hkept : d.prune p = d := prune_eq_self_iff.mpr h
  have heffect : effect d d = .unchanged := (if_neg hne).trans (if_pos rfl)
  rw [pruned, hkept, heffect]

/-- Where a value is not kept, the domain changes. -/
theorem prune_ne_self {v : Int} (hv : v ∈ d) (hno : ¬ p.Keeps v) : d.prune p ≠ d :=
  fun h => hno (prune_eq_self_iff.mp h v hv)

end Domain

namespace Intervals

open ConstraintSolver.Interval

variable {l : List Interval} {v : Int}

/-! ## Taking one integer out -/

/-- Erasing a value that is not covered changes nothing. -/
theorem erase_of_not_covers (h : ¬ Covers l v) : erase v l = l := by
  have hno : ∀ i ∈ l, v ∉ i := fun i hi hv => h ⟨i, hi, hv⟩
  calc erase v l = l.flatMap fun i => [i] :=
        List.flatMap_congr fun i hi => if_neg (hno i hi)
    _ = l := List.flatMap_singleton' l

/-- Only the interval which holds the integer is taken apart. -/
theorem erase_append_cons {below above : List Interval} {i : Interval}
    (h : Canonical (below ++ i :: above)) (hv : v ∈ i) :
    erase v (below ++ i :: above)
      = below ++ (piece i.lo (v - 1) ++ piece (v + 1) i.hi) ++ above := by
  obtain ⟨_, hright, hcross⟩ := List.pairwise_append.mp h.apart
  have hbelow : ¬ Covers below v := by
    rintro ⟨j, hj, hjv⟩
    have := hcross j hj i List.mem_cons_self
    simp only [Before, Interval.mem_def] at this hv hjv
    omega
  have habove : ¬ Covers above v := by
    rintro ⟨j, hj, hjv⟩
    have := (List.pairwise_cons.mp hright).1 j hj
    simp only [Before, Interval.mem_def] at this hv hjv
    omega
  have hparts : erase v (below ++ i :: above) = erase v below ++
      ((if v ∈ i then piece i.lo (v - 1) ++ piece (v + 1) i.hi else [i]) ++ erase v above) := by
    simp only [erase, List.flatMap_append, List.flatMap_cons]
  rw [hparts, erase_of_not_covers hbelow, erase_of_not_covers habove, if_pos hv]
  simp only [List.append_assoc]

theorem insertIdx_append_cons (below above : List Interval) (i j : Interval) :
    (below ++ i :: above).insertIdx (below.length + 1) j = below ++ i :: j :: above := by
  induction below with
  | nil => rfl
  | cons k below ih => exact congrArg (k :: ·) ih

/-- Whichever way an interval is taken apart, every sum fits and the pieces
    stand where it stood. -/
theorem takeApart?_eq (below above : List Interval) {i : Interval} (hi : i.Valid) (hv : v ∈ i) :
    takeApart? v (below ++ i :: above) below.length i
      = report? (below ++ (piece i.lo (v - 1) ++ piece (v + 1) i.hi) ++ above) := by
  simp only [Valid] at hi
  rw [Interval.mem_def] at hv
  unfold takeApart?
  -- the interval vanishes, loses an end, or falls into two
  by_cases hsingle : i.lo = i.hi
  · rw [if_pos hsingle, piece, if_neg (by omega), piece, if_neg (by omega)]
    simp [List.eraseIdx_append]
  · rw [if_neg hsingle]
    by_cases hlow : v = i.lo
    · rw [if_pos hlow, word?_of_inRange ⟨by omega, by omega⟩, piece, if_neg (by omega), piece,
        if_pos (by omega)]
      simp [hlow]
    · rw [if_neg hlow]
      by_cases hhigh : v = i.hi
      · rw [if_pos hhigh, word?_of_inRange ⟨by omega, by omega⟩, piece, if_pos (by omega), piece,
          if_neg (by omega)]
        simp [hhigh]
      · rw [if_neg hhigh, word?_of_inRange ⟨by omega, by omega⟩,
          word?_of_inRange ⟨by omega, by omega⟩, piece, if_pos (by omega), piece,
          if_pos (by omega)]
        simp [insertIdx_append_cons]

/-- **REMOVING A VALUE** leaves the list without the value. -/
theorem removeValue?_eq (d : Domain) (v : Int) :
    removeValue? v d.intervals
      = some ((d.pruned (.except v)).1, (d.pruned (.except v)).2.intervals) := by
  unfold removeValue?
  split
  · exact Domain.pruned_of_isEmpty ‹_›
  · rename_i hne
    cases hpos : positionOf d.intervals v with
    | none =>
        have hno := (positionOf_eq_none_iff d.canonical).mp hpos
        refine Domain.pruned_of_kept hne fun w hw => ?_
        rintro rfl
        exact hno hw
    | some k =>
        obtain ⟨below, i, above, hl, rfl, hv⟩ := split_of_positionOf hpos
        have hi : i ∈ d.intervals := by simp [hl]
        have hget : d.intervals[below.length]? = some i := by simp [hl]
        simp only [hget, Option.bind_eq_bind, Option.bind_some]
        rw [hl, takeApart?_eq below above (d.canonical.valid i hi) hv,
          ← erase_append_cons (hl ▸ d.canonical) hv, ← hl]
        exact Domain.report?_of_pruned rfl
          (Domain.prune_ne_self (v := v) ⟨i, hi, hv⟩ fun h => h rfl)

/-! ## Raising and lowering a bound -/

/-- Only the interval at the bound is cut: the ones before it end below the
    bound, and the ones after it start above. -/
theorem atLeast_eq (h : Canonical l) (v : Int) :
    ((l.filter fun i => v ≤ i.hi).modifyHead fun first => ⟨max first.lo v, first.hi⟩)
      = atLeast v l := by
  induction l with
  | nil => rfl
  | cons i rest ih =>
      obtain ⟨hi, hbefore, hrest⟩ := canonical_cons.mp h
      have hcons : atLeast v (i :: rest) = piece (max i.lo v) i.hi ++ atLeast v rest := by
        simp only [atLeast, List.flatMap_cons]
      by_cases hv : v ≤ i.hi
      -- the first interval that reaches the bound: those after it lie above the bound
      · have hlow : ∀ j ∈ rest, j.lo ≤ j.hi ∧ v ≤ j.lo := by
          intro j hj
          have hij := hbefore j hj
          simp only [Before] at hij
          exact ⟨(hrest.valid j hj).2.1, by omega⟩
        have hfilter : rest.filter (fun j => decide (v ≤ j.hi)) = rest :=
          List.filter_eq_self.mpr fun j hj => by
            have := hlow j hj
            simp only [decide_eq_true_eq]
            omega
        have hwhole : atLeast v rest = rest := by
          calc atLeast v rest = rest.flatMap fun j => [j] :=
                List.flatMap_congr fun j hj => by
                  have := hlow j hj
                  rw [piece, if_pos (by omega), Int.max_eq_left this.2]
            _ = rest := List.flatMap_singleton' rest
        simp only [Valid] at hi
        rw [hcons, hwhole, List.filter_cons_of_pos (by simpa using hv), hfilter, piece,
          if_pos (by omega)]
        rfl
      · rw [hcons, List.filter_cons_of_neg (by simpa using hv), piece, if_neg (by omega)]
        exact ih hrest

/-- Only the interval at the bound is cut, as `atLeast_eq` says of the other
    side. -/
theorem atMost_eq (h : Canonical l) (v : Int) :
    modifyLast (fun last => ⟨last.lo, min last.hi v⟩) (l.filter fun i => i.lo ≤ v)
      = atMost v l := by
  induction l with
  | nil => rfl
  | cons i rest ih =>
      obtain ⟨hi, hbefore, hrest⟩ := canonical_cons.mp h
      have hcons : atMost v (i :: rest) = piece i.lo (min i.hi v) ++ atMost v rest := by
        simp only [atMost, List.flatMap_cons]
      simp only [Valid] at hi
      rw [hcons, ← ih hrest]
      by_cases hv : i.lo ≤ v
      · rw [List.filter_cons_of_pos (by simpa using hv)]
        cases hkept : rest.filter (fun j => decide (j.lo ≤ v)) with
        | nil =>
            rw [piece, if_pos (by omega)]
            rfl
        | cons k kept =>
            -- another interval is left, so this one ends below the bound
            have hk : k ∈ rest.filter (fun j => decide (j.lo ≤ v)) := hkept ▸ List.mem_cons_self
            obtain ⟨hk, hkv⟩ := List.mem_filter.mp hk
            have hik := hbefore k hk
            simp only [Before, decide_eq_true_eq] at hik hkv
            rw [modifyLast_cons_cons, piece, if_pos (by omega), Int.min_eq_left (by omega)]
            rfl
      · have hnone : rest.filter (fun j => decide (j.lo ≤ v)) = [] :=
          List.filter_eq_nil_iff.mpr fun j hj => by
            have hij := hbefore j hj
            simp only [Before] at hij
            simp only [decide_eq_true_eq]
            omega
        rw [List.filter_cons_of_neg (by simpa using hv), hnone, piece, if_neg (by omega)]
        rfl

theorem inhabited_of_intervals {d : Domain} (hne : ¬ d.intervals.isEmpty = true) : ∃ w, w ∈ d :=
  Domain.inhabited_of_not_isEmpty (by simpa [Domain.isEmpty] using hne)

/-- **RAISING THE LOWER BOUND** says `unchanged` exactly when the bound was
    high enough already. -/
theorem removeBelow?_eq (d : Domain) (v : Int) :
    removeBelow? v d.intervals
      = some ((d.pruned (.atLeast v)).1, (d.pruned (.atLeast v)).2.intervals) := by
  unfold removeBelow?
  split
  · exact Domain.pruned_of_isEmpty ‹_›
  · rename_i hne
    split
    · rename_i hle
      exact Domain.pruned_of_kept hne fun w hw => Int.le_trans hle (Domain.lowerBound_le hw)
    · rename_i hlt
      exact Domain.report?_of_pruned (atLeast_eq d.canonical v)
        (Domain.prune_ne_self (Domain.lowerBound_mem (inhabited_of_intervals hne)) hlt)

/-- **LOWERING THE UPPER BOUND** says `unchanged` exactly when the bound was
    low enough already. -/
theorem removeAbove?_eq (d : Domain) (v : Int) :
    removeAbove? v d.intervals
      = some ((d.pruned (.atMost v)).1, (d.pruned (.atMost v)).2.intervals) := by
  unfold removeAbove?
  split
  · exact Domain.pruned_of_isEmpty ‹_›
  · rename_i hne
    split
    · rename_i hle
      exact Domain.pruned_of_kept hne fun w hw => Int.le_trans (Domain.le_upperBound hw) hle
    · rename_i hlt
      exact Domain.report?_of_pruned (atMost_eq d.canonical v)
        (Domain.prune_ne_self (Domain.upperBound_mem (inhabited_of_intervals hne)) hlt)

/-! ## Intersecting -/

/-- **INTERSECTING** compares lists, which is as good as comparing sets because
    both lists are canonical. -/
theorem intersectWith?_eq (d e : Domain) :
    intersectWith? e.intervals d.intervals
      = some ((d.pruned (.within e)).1, (d.pruned (.within e)).2.intervals) := by
  unfold intersectWith?
  split
  · exact Domain.pruned_of_isEmpty ‹_›
  · rename_i hne
    split
    · rename_i hsame
      refine Domain.pruned_of_kept hne fun w hw => ?_
      have hboth : Covers (meet d.intervals e.intervals) w := hsame.symm ▸ hw
      exact ((covers_meet d.canonical e.canonical).mp hboth).2
    · rename_i hother
      exact Domain.report?_of_pruned rfl fun h => hother (congrArg Domain.intervals h)

/-- **EVERY MUTATION** in words is the pruning of the library. -/
theorem prune?_eq (d : Domain) (p : Pruning) :
    prune? p d.intervals = some ((d.pruned p).1, (d.pruned p).2.intervals) := by
  cases p with
  | except v => exact removeValue?_eq d v
  | atLeast v => exact removeBelow?_eq d v
  | atMost v => exact removeAbove?_eq d v
  | within e => exact intersectWith?_eq d e

example : prune? (.except minValue) [⟨minValue, maxValue⟩]
    = some (.shrunk, [⟨minValue + 1, maxValue⟩]) := by cbv

end Intervals

namespace Domain

/-! ## Effects -/

/-- A domain is reported as emptied exactly if no value is left. -/
theorem effect_eq_emptied_iff {before after : Domain} :
    effect before after = .emptied ↔ ∀ w, w ∉ after := by
  rw [← isEmpty_iff, effect]
  by_cases hempty : after.isEmpty = true
  · simp [hempty]
  · rw [if_neg hempty]
    split <;> simpa using hempty

/-- Of what is not empty, equality of lists decides the report. -/
theorem effect_of_inhabited {before after : Domain} (h : ∃ w, w ∈ after) :
    effect before after = if after = before then .unchanged else .shrunk := by
  obtain ⟨w, hw⟩ := h
  exact if_neg fun hempty => isEmpty_iff.mp hempty w hw

/-- Of what is empty, nothing else is reported. -/
theorem effect_of_empty {before after : Domain} (h : ¬ ∃ w, w ∈ after) :
    effect before after = .emptied :=
  effect_eq_emptied_iff.mpr (not_exists.mp h)

/-- A domain is reported as unchanged exactly if it has values and is the same. -/
theorem effect_eq_unchanged_iff {before after : Domain} :
    effect before after = .unchanged ↔ (∃ w, w ∈ after) ∧ after = before := by
  by_cases hsome : ∃ w, w ∈ after
  · rw [effect_of_inhabited hsome]
    by_cases hsame : after = before
    · rw [if_pos hsame]
      exact iff_of_true rfl ⟨hsome, hsame⟩
    · simp [hsame]
  · simp [effect_of_empty hsome, hsome]

/-- A domain is reported as shrunk exactly if it has values and is not the same. -/
theorem effect_eq_shrunk_iff {before after : Domain} :
    effect before after = .shrunk ↔ (∃ w, w ∈ after) ∧ after ≠ before := by
  by_cases hsome : ∃ w, w ∈ after
  · rw [effect_of_inhabited hsome]
    by_cases hsame : after = before
    · simp [hsame]
    · rw [if_neg hsame]
      exact iff_of_true rfl ⟨hsome, hsame⟩
  · simp [effect_of_empty hsome, hsome]

/-- **PRUNING IN WORDS REFINES SETS**: the computation in words goes through
    without an overflow, its result is the canonical list of the members
    which the restriction allows, and its report tells an emptied, a smaller
    and an unchanged set apart. -/
theorem pruning_in_words_refines_sets (d : Domain) (p : Pruning) :
    ∃ effect after, Intervals.prune? p d.intervals = some (effect, after) ∧
      d.pruned p = (effect, d.prune p) ∧ after = (d.prune p).intervals ∧
      Canonical after ∧ (∀ w, Covers after w ↔ w ∈ d ∧ p.Keeps w) ∧
      (effect = .emptied ↔ ∀ w, ¬ Covers after w) ∧
      (effect = .shrunk ↔ (∃ w, Covers after w) ∧ ∃ w ∈ d, ¬ Covers after w) ∧
      (effect = .unchanged ↔ (∃ w, Covers after w) ∧ ∀ w ∈ d, Covers after w) := by
  have hall : (∀ w ∈ d, w ∈ d.prune p) ↔ d.prune p = d :=
    ⟨fun h => le_antisymm (prune_le d p) h, fun h w hw => h.symm ▸ hw⟩
  refine ⟨_, _, Intervals.prune?_eq d p, rfl, rfl, (d.prune p).canonical, fun w => mem_prune,
    effect_eq_emptied_iff, ?_, ?_⟩
  · refine effect_eq_shrunk_iff.trans (and_congr_right' ?_)
    rw [ne_eq, ← hall]
    push Not
    rfl
  · exact effect_eq_unchanged_iff.trans (and_congr_right' hall.symm)

end Domain

end ConstraintSolver
