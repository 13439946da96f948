import ConstraintSolver.Proofs.Queries

/-! # Merging — every construction ends in the canonical form

    A domain is made from listed values, from two domains, or by moving one.
    All three sort intervals by their lower ends and merge them from left to
    right into the last one.  What has been merged is canonical and covers
    what has been read (`foldlM_mergeLast?`), so the result is the only
    canonical list there is for the set, whatever order equal ends were left
    in (`mergeAll?_eq`). -/

namespace ConstraintSolver

namespace Intervals

open ConstraintSolver.Interval

variable {l r : List Interval} {i : Interval}

/-! ## Merging from left to right -/

theorem canonical_concat :
    Canonical (l ++ [i]) ↔ Canonical l ∧ i.Valid ∧ ∀ j ∈ l, j.Before i := by
  constructor
  · intro h
    obtain ⟨hl, _, hcross⟩ := List.pairwise_append.mp h.apart
    exact ⟨⟨fun j hj => h.valid j (List.mem_append_left _ hj), hl⟩,
      h.valid i (by simp), fun j hj => hcross j hj i List.mem_cons_self⟩
  · rintro ⟨hl, hi, hbefore⟩
    refine ⟨fun j hj => ?_, List.pairwise_append.mpr ⟨hl.apart, List.pairwise_singleton .., ?_⟩⟩
    · rcases List.mem_append.mp hj with hj | hj
      · exact hl.valid j hj
      · exact List.mem_singleton.mp hj ▸ hi
    · intro j hj k hk
      exact List.mem_singleton.mp hk ▸ hbefore j hj

theorem covers_concat {v : Int} : Covers (l ++ [i]) v ↔ Covers l v ∨ v ∈ i := by
  rw [covers_append]
  simp [Covers]

/-- The last interval may grow upwards. -/
theorem canonical_grow {last : Interval} (h : Canonical (l ++ [last])) (hi : i.Valid) :
    Canonical (l ++ [⟨last.lo, max last.hi i.hi⟩]) := by
  obtain ⟨hl, hlast, hbefore⟩ := canonical_concat.mp h
  refine canonical_concat.mpr ⟨hl, ?_, hbefore⟩
  simp only [Valid] at *
  omega

/-- An interval which touches the last one is covered once that has grown. -/
theorem covers_grow {last : Interval} (hstart : last.lo ≤ i.lo) (htouch : i.lo ≤ last.hi + 1)
    (v : Int) :
    Covers (l ++ [⟨last.lo, max last.hi i.hi⟩]) v ↔ Covers (l ++ [last]) v ∨ v ∈ i := by
  rw [covers_concat, covers_concat, or_assoc]
  refine or_congr_right ?_
  simp only [mem_def]
  omega

/-- An interval which starts beyond the last one may stand behind it. -/
theorem canonical_behind {last : Interval} (h : Canonical (l ++ [last])) (hi : i.Valid)
    (hgap : last.hi + 1 < i.lo) : Canonical (l ++ [last] ++ [i]) := by
  refine canonical_concat.mpr ⟨h, hi, fun j hj => ?_⟩
  have hlast := (canonical_concat.mp h).2.1
  simp only [Before, Valid] at *
  rcases List.mem_append.mp hj with hj | hj
  · have hjlast := (canonical_concat.mp h).2.2 j hj
    simp only [Before] at hjlast
    omega
  · rw [List.mem_singleton.mp hj]
    exact hgap

/-- One more interval, which starts no earlier than those merged so far, is
    merged into the last one or put behind it. -/
theorem mergeLast?_step (hl : Canonical l) (hi : i.Valid) (hle : ∀ j ∈ l, j.lo ≤ i.lo) :
    ∃ merged, mergeLast? l i = some merged ∧ Canonical merged ∧
      (∀ v, Covers merged v ↔ Covers l v ∨ v ∈ i) ∧ ∀ j ∈ merged, j.lo ≤ i.lo := by
  cases hlast : l.getLast? with
  | none =>
      obtain rfl := List.getLast?_eq_none_iff.mp hlast
      refine ⟨[i], rfl, canonical_singleton hi, fun v => ?_, fun j hj => ?_⟩
      · simp [Covers]
      · exact List.mem_singleton.mp hj ▸ Int.le_refl _
  | some last =>
      obtain ⟨front, rfl⟩ := List.getLast?_eq_some_iff.mp hlast
      have hvalid := (canonical_concat.mp hl).2.1
      have hstart : last.lo ≤ i.lo := hle last (by simp)
      simp only [mergeLast?, hlast, longWord?_succ ⟨Int.le_trans hvalid.1 hvalid.2.1, hvalid.2.2⟩,
        Option.bind_eq_bind, Option.bind_some]
      -- the interval touches the last one, which grows, or leaves a gap and is appended
      by_cases htouch : i.lo ≤ last.hi + 1
      · rw [if_pos htouch, modifyLast_concat]
        refine ⟨_, rfl, canonical_grow hl hi, covers_grow hstart htouch, fun j hj => ?_⟩
        rcases List.mem_append.mp hj with hj | hj
        · exact hle j (List.mem_append_left _ hj)
        · exact List.mem_singleton.mp hj ▸ hstart
      · rw [if_neg htouch]
        refine ⟨_, rfl, canonical_behind hl hi (Int.not_le.mp htouch), fun v => covers_concat,
          fun j hj => ?_⟩
        rcases List.mem_append.mp hj with hj | hj
        · exact hle j hj
        · exact List.mem_singleton.mp hj ▸ Int.le_refl _

/-- Merging a sorted list goes through, and covers what it has read. -/
theorem foldlM_mergeLast? (hvalid : ∀ i ∈ r, i.Valid)
    (hsorted : r.Pairwise fun a b => a.lo ≤ b.lo) (hl : Canonical l)
    (hle : ∀ j ∈ l, ∀ i ∈ r, j.lo ≤ i.lo) :
    ∃ merged, r.foldlM mergeLast? l = some merged ∧ Canonical merged ∧
      ∀ v, Covers merged v ↔ Covers l v ∨ Covers r v := by
  induction r generalizing l with
  | nil => exact ⟨l, rfl, hl, fun v => by simp [Covers]⟩
  | cons i rest ih =>
      obtain ⟨hfirst, hrest⟩ := List.pairwise_cons.mp hsorted
      obtain ⟨next, hnext, hcanonical, hcovers, hbound⟩ := mergeLast?_step hl
        (hvalid i List.mem_cons_self) fun j hj => hle j hj i List.mem_cons_self
      obtain ⟨merged, hmerged, hresult, hall⟩ := ih
        (fun j hj => hvalid j (List.mem_cons_of_mem _ hj)) hrest hcanonical
        fun j hj k hk => Int.le_trans (hbound j hj) (hfirst k hk)
      refine ⟨merged, ?_, hresult, fun v => ?_⟩
      · rw [List.foldlM_cons, hnext]
        exact hmerged
      · rw [hall, hcovers, covers_cons, or_assoc]

/-- **MERGING** finds the canonical list of what a sorted list covers. -/
theorem mergeAll?_eq (hvalid : ∀ i ∈ l, i.Valid) (hsorted : l.Pairwise fun a b => a.lo ≤ b.lo)
    (hr : Canonical r) (hcovers : ∀ v, Covers r v ↔ Covers l v) : mergeAll? l = some r := by
  obtain ⟨merged, hmerged, hcanonical, hall⟩ :=
    foldlM_mergeLast? hvalid hsorted canonical_nil fun j hj => absurd hj List.not_mem_nil
  have hsame : merged = r := by
    refine ext hcanonical hr fun v => ?_
    rw [hall, hcovers]
    simp [Covers]
  rw [mergeAll?, hmerged, hsame]

theorem covers_of_perm (h : l.Perm r) (v : Int) : Covers l v ↔ Covers r v :=
  exists_congr fun _ => and_congr_left' h.mem_iff

/-- Sorting by an integer key puts the keys in order. -/
theorem pairwise_mergeSort_key {α : Type} (key : α → Int) (l : List α) :
    (l.mergeSort fun a b => decide (key a ≤ key b)).Pairwise fun a b => key a ≤ key b := by
  refine (List.pairwise_mergeSort ?_ ?_ l).imp fun h => of_decide_eq_true h
  · intro a b c hab hbc
    simp only [decide_eq_true_eq] at *
    omega
  · intro a b
    simp only [Bool.or_eq_true, decide_eq_true_eq]
    omega

/-- **NORMALISING** finds the canonical list of what the intervals cover. -/
theorem normalise?_eq (hvalid : ∀ i ∈ l, i.Valid) (hr : Canonical r)
    (hcovers : ∀ v, Covers r v ↔ Covers l v) : normalise? l = some r := by
  have hperm := List.mergeSort_perm l fun a b => decide (a.lo ≤ b.lo)
  refine mergeAll?_eq (fun i hi => hvalid i (hperm.mem_iff.mp hi))
    (pairwise_mergeSort_key Interval.lo l) hr fun v => ?_
  rw [hcovers, covers_of_perm hperm]

/-- The order in which sorting leaves intervals with the same lower end does
    not show. -/
theorem mergeAll?_of_perm {arranged : List Interval} (hvalid : ∀ i ∈ l, i.Valid)
    (hperm : arranged.Perm l) (hsorted : arranged.Pairwise fun a b => a.lo ≤ b.lo) :
    mergeAll? arranged = normalise? l := by
  have hcanonical := canonical_insertAll hvalid canonical_nil
  have hcovers : ∀ v, Covers (insertAll l []) v ↔ Covers l v := by
    intro v
    rw [covers_insertAll hvalid canonical_nil]
    simp [Covers]
  rw [normalise?_eq hvalid hcanonical hcovers]
  refine mergeAll?_eq (fun i hi => hvalid i (hperm.mem_iff.mp hi)) hsorted hcanonical fun v => ?_
  rw [hcovers, covers_of_perm hperm]

end Intervals

namespace Domain

variable {d e : Domain}

/-! ## From values -/

/-- Of words, the domain has just the listed ones. -/
theorem mem_ofValues_iff {values : List Int} (hrange : ∀ v ∈ values, InRange v) (v : Int) :
    v ∈ ofValues values ↔ v ∈ values :=
  mem_ofValues.trans ⟨And.right, fun hv => ⟨hrange v hv, hv⟩⟩

theorem ofValues?_of_ne_nil {values : List Int} (hne : values ≠ [])
    (hrange : ∀ v ∈ values, InRange v) : ofValues? values = .ok (ofValues values) := by
  obtain ⟨first, hfirst⟩ := List.exists_mem_of_ne_nil values hne
  exact if_neg fun hempty =>
    isEmpty_iff.mp hempty first ((mem_ofValues_iff hrange first).mpr hfirst)

/-- Intervals of one integer each cover the integers they were made of. -/
theorem covers_map_point {values : List Int} {v : Int} :
    Covers (values.map fun v => ⟨v, v⟩) v ↔ v ∈ values := by
  simp only [Covers, List.mem_map, Interval.mem_def]
  constructor
  · rintro ⟨_, ⟨w, hw, rfl⟩, hle, hge⟩
    exact Int.le_antisymm hge hle ▸ hw
  · intro hv
    exact ⟨_, ⟨v, hv, rfl⟩, Int.le_refl _, Int.le_refl _⟩

/-- Once sorted, the listed values are merged to the domain which has them. -/
theorem mergeAll?_sorted_values {values : List Int} (hrange : ∀ v ∈ values, InRange v) :
    Intervals.mergeAll? ((values.mergeSort fun a b => a ≤ b).map fun v => ⟨v, v⟩)
      = some (ofValues values).intervals := by
  have hperm := List.mergeSort_perm values fun a b => decide (a ≤ b)
  refine Intervals.mergeAll?_eq ?_ ?_ (ofValues values).canonical fun v => ?_
  · intro i hi
    obtain ⟨v, hv, rfl⟩ := List.mem_map.mp hi
    have hr := hrange v (hperm.mem_iff.mp hv)
    exact ⟨hr.1, Int.le_refl _, hr.2⟩
  · exact List.pairwise_map.mpr (Intervals.pairwise_mergeSort_key id values)
  · rw [covers_map_point, hperm.mem_iff]
    exact mem_ofValues_iff hrange v

/-- **LISTED VALUES** make the domain which has just them, and an empty list is
    refused. -/
theorem fromValues?_eq {values : List Int} (hrange : ∀ v ∈ values, InRange v) :
    Intervals.fromValues? values = some ((ofValues? values).map Domain.intervals) := by
  by_cases hne : values = []
  · subst hne
    rfl
  · have hcons : ¬ values.isEmpty = true := by simpa using hne
    rw [Intervals.fromValues?, if_neg hcons, mergeAll?_sorted_values hrange,
      ofValues?_of_ne_nil hne hrange]
    rfl

/-! ## From two domains -/

/-- A part with as many members is the whole. -/
theorem size_eq_iff_of_le (h : d ≤ e) : e.size = d.size ↔ e = d := by
  constructor
  · intro hsize
    -- the part is what a restriction leaves of the whole
    have hpart : e.prune (.within d) = d :=
      ext fun v => mem_prune.trans ⟨And.right, fun hv => ⟨h v hv, hv⟩⟩
    by_contra hne
    have hlt := @size_prune_lt e (.within d) fun heq => hne (heq.symm.trans hpart)
    rw [hpart] at hlt
    omega
  · rintro rfl
    rfl

/-- **ADDING** a domain in words compares counts, which is as good as comparing
    sets because nothing is lost. -/
theorem unionWith?_eq (d e : Domain) :
    Intervals.unionWith? d.intervals e.intervals
      = some ((d.absorb e).1, (d.absorb e).2.intervals) := by
  have hmerged : Intervals.normalise? (d.intervals ++ e.intervals) = some (d ∪ e).intervals := by
    refine Intervals.normalise?_eq (fun i hi => ?_) (d ∪ e).canonical fun v => ?_
    · rcases List.mem_append.mp hi with hi | hi
      · exact d.canonical.valid i hi
      · exact e.canonical.valid i hi
    · exact mem_union.trans Intervals.covers_append.symm
  have hgrew : ((d ∪ e).size != d.size) = decide (d ∪ e ≠ d) := by
    have hle : d ≤ d ∪ e := fun v hv => mem_union.mpr (Or.inl hv)
    rw [Bool.eq_iff_iff, bne_iff_ne, decide_eq_true_eq, ne_eq, ne_eq, size_eq_iff_of_le hle]
  simp only [Intervals.unionWith?, Intervals.size?_eq d.canonical, hmerged,
    Intervals.size?_eq (d ∪ e).canonical, Option.bind_eq_bind, Option.bind_some]
  exact congrArg (fun grew => some (grew, (d ∪ e).intervals)) hgrew

theorem absorb_grew_iff : (d.absorb e).1 = true ↔ ∃ v ∈ e, v ∉ d := by
  have hsame : d ∪ e = d ↔ ∀ v ∈ e, v ∈ d := by
    rw [ext_iff]
    simp only [mem_union]
    exact ⟨fun h v hv => (h v).mp (Or.inr hv), fun h v => ⟨fun hv => hv.elim id (h v), Or.inl⟩⟩
  rw [absorb, decide_eq_true_eq, ne_eq, hsame]
  push Not
  rfl

/-! ## Moving -/

/-- **MOVING** in words is moving with saturation at the limits. -/
theorem shifted?_eq (d : Domain) (offset : Int) :
    Intervals.shifted? offset d.intervals = some (d.shift offset).intervals := by
  have hvalid : ∀ i ∈ d.intervals.map fun i =>
      (⟨saturate (i.lo + offset), saturate (i.hi + offset)⟩ : Interval), i.Valid := by
    intro i hi
    obtain ⟨j, hj, rfl⟩ := List.mem_map.mp hi
    have hj := (d.canonical.valid j hj).2.1
    exact ⟨(inRange_saturate _).1, saturate_mono (by omega), (inRange_saturate _).2⟩
  refine Intervals.normalise?_eq hvalid (d.shift offset).canonical fun v => ?_
  exact (Intervals.covers_insertAll hvalid Intervals.canonical_nil).trans (by simp [Covers])

/-- Nothing is lost on the way when no member is at its limit. -/
theorem shift_shift_neg {offset : Int} (h : ∀ v ∈ d, InRange (v + offset)) :
    (d.shift offset).shift (-offset) = d := by
  have hback : ∀ v ∈ d, saturate (saturate (v + offset) + -offset) = v := by
    intro v hv
    rw [saturate_of_inRange (h v hv), Int.add_neg_cancel_right,
      saturate_of_inRange (inRange_of_mem hv)]
  refine ext fun v => ?_
  rw [mem_shift]
  constructor
  · rintro ⟨w, hw, rfl⟩
    obtain ⟨u, hu, rfl⟩ := mem_shift.mp hw
    exact (hback u hu).symm ▸ hu
  · intro hv
    exact ⟨_, mem_shift.mpr ⟨v, hv, rfl⟩, hback v hv⟩

/-- Everything that is added is there in the end. -/
theorem mem_foldl_absorb (es : List Domain) {v : Int} :
    v ∈ es.foldl (fun d e => (d.absorb e).2) d ↔ v ∈ d ∨ ∃ e ∈ es, v ∈ e := by
  induction es generalizing d with
  | nil => simp
  | cons e es ih =>
      rw [List.foldl_cons, ih, List.exists_mem_cons_iff, ← or_assoc]
      exact or_congr_left mem_union

/-- **CONSTRUCTIONS ARE CANONICAL**: listed values, unions and moves, computed
    in words, all end in the one canonical list of their set, whatever order
    sorting leaves equal ends in.  So moving there and back changes nothing
    unless a member saturates, and the order of unions does not matter. -/
theorem constructions_are_canonical :
    (∀ values : List Int, values ≠ [] → (∀ v ∈ values, InRange v) →
      ∃ d, Intervals.fromValues? values = some (.ok d.intervals) ∧ ofValues? values = .ok d ∧
        ∀ v, v ∈ d ↔ v ∈ values) ∧
    (∀ d e : Domain,
      Intervals.unionWith? d.intervals e.intervals
        = some ((d.absorb e).1, (d.absorb e).2.intervals) ∧
      (∀ v, v ∈ (d.absorb e).2 ↔ v ∈ d ∨ v ∈ e) ∧
      ((d.absorb e).1 = true ↔ ∃ v, v ∈ (d.absorb e).2 ∧ v ∉ d)) ∧
    (∀ (d : Domain) (offset : Int),
      Intervals.shifted? offset d.intervals = some (d.shift offset).intervals ∧
      ∀ w, w ∈ d.shift offset ↔ ∃ v ∈ d, w = min (max (v + offset) minValue) maxValue) ∧
    (∀ (l arranged : List Interval), (∀ i ∈ l, i.Valid) → arranged.Perm l →
      (arranged.Pairwise fun a b => a.lo ≤ b.lo) →
      Intervals.mergeAll? arranged = Intervals.normalise? l) ∧
    (∀ d e : Domain, d.intervals = e.intervals ↔ ∀ v, v ∈ d ↔ v ∈ e) ∧
    (∀ (d : Domain) (offset : Int), (∀ v ∈ d, InRange (v + offset)) →
      (Intervals.shifted? offset d.intervals).bind (Intervals.shifted? (-offset))
        = some d.intervals) ∧
    ∀ (d : Domain) (es fs : List Domain), es.Perm fs →
      es.foldl (fun d e => (d.absorb e).2) d = fs.foldl (fun d e => (d.absorb e).2) d := by
  refine ⟨fun values hne hrange => ?_, fun d e => ⟨unionWith?_eq d e, fun v => mem_union, ?_⟩,
    fun d offset => ⟨shifted?_eq d offset, fun w => ?_⟩,
    fun l arranged => Intervals.mergeAll?_of_perm, fun d e => ⟨fun h => ?_, fun h => ?_⟩,
    fun d offset h => ?_, fun d es fs hperm => ?_⟩
  · have hsome := ofValues?_of_ne_nil hne hrange
    refine ⟨ofValues values, ?_, hsome, mem_ofValues_iff hrange⟩
    rw [fromValues?_eq hrange, hsome]
    rfl
  · rw [absorb_grew_iff]
    refine exists_congr fun v => and_congr_left fun hv => ?_
    exact (mem_union.trans (or_iff_right hv)).symm
  · rw [mem_shift]
    refine exists_congr fun v => and_congr_right fun _ => ?_
    simp only [saturate, minValue, maxValue]
    omega
  · intro v
    rw [mem_def, mem_def, h]
  · exact congrArg Domain.intervals (ext h)
  · rw [shifted?_eq, Option.bind_some, shifted?_eq, shift_shift_neg h]
  -- a union of many domains has the values of all, in whatever order they come
  · refine ext fun v => ?_
    rw [mem_foldl_absorb, mem_foldl_absorb]
    exact or_congr_right (exists_congr fun e => and_congr_left' hperm.mem_iff)

/-- Six listed values, three intervals whose lower ends agree, the two limits
    moved inwards and back, and two unions in either order. -/
theorem constructions_of_six_values_are_canonical :
    (∃ d, Intervals.fromValues? [5, 1, 2, 3, 9, 2] = some (.ok d.intervals) ∧
      ofValues? [5, 1, 2, 3, 9, 2] = .ok d ∧ ∀ v, v ∈ d ↔ v ∈ [5, 1, 2, 3, 9, (2 : Int)]) ∧
    Intervals.mergeAll? [⟨1, 4⟩, ⟨1, 2⟩, ⟨5, 5⟩] = Intervals.normalise? [⟨1, 2⟩, ⟨5, 5⟩, ⟨1, 4⟩] ∧
    (Intervals.shifted? 7 (between minValue 3).intervals).bind (Intervals.shifted? (-7))
      = some (between minValue 3).intervals ∧
    [singleton 4, between 7 9].foldl (fun d e => (d.absorb e).2) (singleton 6)
      = [between 7 9, singleton 4].foldl (fun d e => (d.absorb e).2) (singleton 6) := by
  obtain ⟨values, _, _, arranged, _, back, order⟩ := constructions_are_canonical
  refine ⟨values _ (by decide) (by decide),
    arranged _ _ (by simp [Interval.Valid, minValue, maxValue]) (by decide) (by decide),
    back _ _ fun v hv => ?_, order _ _ _ (List.Perm.swap _ _ _)⟩
  have hv := mem_between.mp hv
  simp only [InRange, minValue, maxValue] at *
  omega

end Domain

end ConstraintSolver
