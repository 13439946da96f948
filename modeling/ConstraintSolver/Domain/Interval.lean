/-! # Intervals — the pieces a domain is made of

    A set of 32-bit integers is kept as a list of closed intervals which
    ascend with a gap of at least one integer between neighbours.  Such a
    list is *canonical*: no other canonical list covers the same integers
    (`Intervals.ext`), so comparing lists compares sets.  Every operation
    of this module keeps lists canonical, and says which integers the
    result covers. -/

namespace ConstraintSolver

/-- The smallest integer a domain can hold. -/
def minValue : Int := -2147483648

/-- The largest integer a domain can hold. -/
def maxValue : Int := 2147483647

/-- The integers a domain can hold are those of 32 bits. -/
def InRange (v : Int) : Prop := minValue ≤ v ∧ v ≤ maxValue

instance (v : Int) : Decidable (InRange v) :=
  inferInstanceAs (Decidable (minValue ≤ v ∧ v ≤ maxValue))

/-- The integer of 32 bits which is nearest to `v`. -/
def saturate (v : Int) : Int := max minValue (min v maxValue)

theorem inRange_saturate (v : Int) : InRange (saturate v) := by
  simp only [InRange, saturate, minValue, maxValue]
  omega

/-- Nothing is cut off within the range. -/
theorem saturate_of_inRange {v : Int} (h : InRange v) : saturate v = v := by
  simp only [InRange, saturate, minValue, maxValue] at *
  omega

/-- Cutting off at the ends of the range keeps the order. -/
theorem saturate_mono {v w : Int} (h : v ≤ w) : saturate v ≤ saturate w := by
  simp only [saturate]
  omega

/-- The integers from `lo` to `hi`, both included. -/
structure Interval where
  lo : Int
  hi : Int
  deriving DecidableEq, Repr

namespace Interval

/-- An interval is valid when it is not empty and holds integers of 32 bits
    only. -/
def Valid (i : Interval) : Prop :=
  minValue ≤ i.lo ∧ i.lo ≤ i.hi ∧ i.hi ≤ maxValue

/-- At least one integer lies between the end of `a` and the start of `b`. -/
def Before (a b : Interval) : Prop := a.hi + 1 < b.lo

instance : Membership Int Interval := ⟨fun i v => i.lo ≤ v ∧ v ≤ i.hi⟩

theorem mem_def {i : Interval} {v : Int} : v ∈ i ↔ i.lo ≤ v ∧ v ≤ i.hi := Iff.rfl

instance (i : Interval) (v : Int) : Decidable (v ∈ i) :=
  inferInstanceAs (Decidable (i.lo ≤ v ∧ v ≤ i.hi))

/-- The number of integers in the interval. -/
def size (i : Interval) : Nat := (i.hi + 1 - i.lo).toNat

/-- The integers of the interval in increasing order. -/
def values (i : Interval) : List Int := (List.range i.size).map (i.lo + Int.ofNat ·)

theorem length_values (i : Interval) : i.values.length = i.size := by
  simp [values]

/-- The listed values are the members. -/
theorem mem_values {i : Interval} {v : Int} : v ∈ i.values ↔ v ∈ i := by
  simp only [values, size, List.mem_map, List.mem_range, mem_def]
  constructor
  · rintro ⟨k, hk, rfl⟩
    simp only [Int.ofNat_eq_natCast]
    omega
  · intro h
    refine ⟨(v - i.lo).toNat, ?_, ?_⟩
    · omega
    · simp only [Int.ofNat_eq_natCast]
      omega

/-- The values are listed in ascending order. -/
theorem values_ascending (i : Interval) : i.values.Pairwise (· < ·) := by
  simp only [values, List.pairwise_map]
  refine List.pairwise_lt_range.imp ?_
  intro a b h
  simp only [Int.ofNat_eq_natCast]
  omega

end Interval

/-! ## Canonical lists -/

/-- Some interval of the list holds `v`. -/
def Covers (l : List Interval) (v : Int) : Prop := ∃ i ∈ l, v ∈ i

/-- The intervals are valid, ascend, and neither overlap nor touch. -/
structure Canonical (l : List Interval) : Prop where
  valid : ∀ i ∈ l, i.Valid
  apart : l.Pairwise Interval.Before

namespace Intervals

open ConstraintSolver.Interval

/-- The number of integers in disjoint intervals. -/
def size : List Interval → Nat
  | [] => 0
  | i :: rest => i.size + size rest

/-- The size is the number of the values. -/
theorem length_flatMap_values (l : List Interval) :
    (l.flatMap Interval.values).length = size l := by
  induction l with
  | nil => rfl
  | cons i rest ih => simp [size, Interval.length_values, ih]

theorem not_covers_nil (v : Int) : ¬ Covers [] v := by
  simp [Covers]

theorem covers_cons {i : Interval} {l : List Interval} {v : Int} :
    Covers (i :: l) v ↔ v ∈ i ∨ Covers l v := by
  simp [Covers]

theorem canonical_nil : Canonical [] := ⟨by simp, List.Pairwise.nil⟩

theorem canonical_singleton {i : Interval} (h : i.Valid) : Canonical [i] :=
  ⟨by simpa using h, List.pairwise_singleton ..⟩

/-- A list is canonical exactly if its first interval is valid and lies before the others, with a
    gap, and the others are canonical. -/
theorem canonical_cons {i : Interval} {l : List Interval} :
    Canonical (i :: l) ↔ i.Valid ∧ (∀ j ∈ l, i.Before j) ∧ Canonical l := by
  constructor
  · intro h
    obtain ⟨hb, ha⟩ := List.pairwise_cons.mp h.apart
    exact ⟨h.valid i (List.mem_cons_self ..), hb,
      fun j hj => h.valid j (List.mem_cons_of_mem _ hj), ha⟩
  · rintro ⟨hv, hb, hc⟩
    refine ⟨?_, List.pairwise_cons.mpr ⟨hb, hc.apart⟩⟩
    intro j hj
    rcases List.mem_cons.mp hj with rfl | hj
    · exact hv
    · exact hc.valid j hj

/-- Everything covered by the tail of a canonical list lies beyond the gap
    after its head. -/
theorem lt_of_covers_tail {i : Interval} {l : List Interval} {v : Int}
    (h : Canonical (i :: l)) (hv : Covers l v) : i.hi + 1 < v := by
  obtain ⟨j, hj, hm⟩ := hv
  have hb := (canonical_cons.mp h).2.1 j hj
  simp only [Before, mem_def] at hb hm
  omega

/-- A covered integer has 32 bits. -/
theorem inRange_of_covers {l : List Interval} {v : Int}
    (h : Canonical l) (hv : Covers l v) : InRange v := by
  obtain ⟨i, hi, hm⟩ := hv
  have := h.valid i hi
  simp only [Valid, mem_def, InRange] at *
  omega

/-- The lower end of the head is covered, -/
theorem covers_lo {i : Interval} {l : List Interval} (h : Canonical (i :: l)) :
    Covers (i :: l) i.lo :=
  covers_cons.mpr (.inl ⟨Int.le_refl _, (canonical_cons.mp h).1.2.1⟩)

/-- and nothing below it is. -/
theorem lo_le_of_covers {i : Interval} {l : List Interval} {v : Int} (h : Canonical (i :: l))
    (hv : Covers (i :: l) v) : i.lo ≤ v := by
  rcases covers_cons.mp hv with hm | hc
  · exact hm.1
  · have hlt := lt_of_covers_tail h hc
    have hvalid := (canonical_cons.mp h).1.2.1
    omega

/-- The gap after the head is not covered. -/
theorem not_covers_gap {i : Interval} {l : List Interval} (h : Canonical (i :: l)) :
    ¬ Covers (i :: l) (i.hi + 1) := by
  intro hv
  rcases covers_cons.mp hv with hm | hc
  · exact absurd hm.2 (by omega)
  · exact absurd (lt_of_covers_tail h hc) (by omega)

/-- The tail covers what lies beyond the head. -/
theorem covers_tail_iff {i : Interval} {l : List Interval} {v : Int} (h : Canonical (i :: l)) :
    Covers l v ↔ Covers (i :: l) v ∧ i.hi < v := by
  constructor
  · intro hc
    have hlt := lt_of_covers_tail h hc
    exact ⟨covers_cons.mpr (.inr hc), by omega⟩
  · rintro ⟨hv, hlt⟩
    exact (covers_cons.mp hv).resolve_left fun hm => absurd hm.2 (by omega)

/-- The head ends where the cover ends: a longer one would cover the gap. -/
theorem hi_le_of_covers {i j : Interval} {l : List Interval} (h : Canonical (j :: l))
    (hlo : i.lo ≤ j.hi) (hcovers : ∀ v ∈ i, Covers (j :: l) v) : i.hi ≤ j.hi := by
  refine Int.not_lt.mp fun hlt => not_covers_gap h (hcovers _ ?_)
  exact ⟨by omega, hlt⟩

/-- The head can be read off what is covered. -/
theorem head_eq {i j : Interval} {l r : List Interval} (hl : Canonical (i :: l))
    (hr : Canonical (j :: r)) (h : ∀ v, Covers (i :: l) v ↔ Covers (j :: r) v) : i = j := by
  have hlo : i.lo = j.lo := Int.le_antisymm
    (lo_le_of_covers hl ((h _).mpr (covers_lo hr))) (lo_le_of_covers hr ((h _).mp (covers_lo hl)))
  have hi := (canonical_cons.mp hl).1.2.1
  have hj := (canonical_cons.mp hr).1.2.1
  have hhi : i.hi = j.hi := Int.le_antisymm
    (hi_le_of_covers hr (by omega) fun v hv => (h v).mp (covers_cons.mpr (.inl hv)))
    (hi_le_of_covers hl (by omega) fun v hv => (h v).mpr (covers_cons.mpr (.inl hv)))
  cases i
  cases j
  exact (Interval.mk.injEq ..).mpr ⟨hlo, hhi⟩

/-- **EXTENSIONALITY**: canonical lists which cover the same integers are
    equal. -/
theorem ext : ∀ {l r : List Interval}, Canonical l → Canonical r →
    (∀ v, Covers l v ↔ Covers r v) → l = r
  | [], [], _, _, _ => rfl
  | [], j :: _, _, hr, h => absurd ((h j.lo).mpr (covers_lo hr)) (not_covers_nil _)
  | i :: _, [], hl, _, h => absurd ((h i.lo).mp (covers_lo hl)) (not_covers_nil _)
  | i :: l, j :: r, hl, hr, h => by
      obtain rfl := head_eq hl hr h
      have htails : ∀ v, Covers l v ↔ Covers r v := fun v => by
        rw [covers_tail_iff hl, covers_tail_iff hr, h]
      rw [ext (canonical_cons.mp hl).2.2 (canonical_cons.mp hr).2.2 htails]

/-! ## Cutting pieces out of every interval -/

/-- Replacing every interval by a canonical list inside it keeps a list
    canonical. -/
theorem canonical_flatMap {l : List Interval} {f : Interval → List Interval}
    (hl : Canonical l) (hf : ∀ i ∈ l, Canonical (f i))
    (hin : ∀ i ∈ l, ∀ j ∈ f i, i.lo ≤ j.lo ∧ j.hi ≤ i.hi) :
    Canonical (l.flatMap f) := by
  constructor
  · intro j hj
    obtain ⟨i, hi, hj⟩ := List.mem_flatMap.mp hj
    exact (hf i hi).valid j hj
  · rw [List.pairwise_flatMap]
    refine ⟨fun i hi => (hf i hi).apart, ?_⟩
    refine hl.apart.imp_of_mem ?_
    intro a b ha hb hab x hx y hy
    have h1 := hin a ha x hx
    have h2 := hin b hb y hy
    simp only [Before] at *
    omega

theorem covers_flatMap {l : List Interval} {f : Interval → List Interval} {v : Int} :
    Covers (l.flatMap f) v ↔ ∃ i ∈ l, Covers (f i) v := by
  simp only [Covers, List.mem_flatMap]
  constructor
  · rintro ⟨j, ⟨i, hi, hj⟩, hm⟩
    exact ⟨i, hi, j, hj, hm⟩
  · rintro ⟨i, hi, j, hj, hm⟩
    exact ⟨j, ⟨i, hi, hj⟩, hm⟩

/-- The interval if it is not empty. -/
def piece (lo hi : Int) : List Interval := if lo ≤ hi then [⟨lo, hi⟩] else []

/-- A piece covers what lies between its ends, and nothing if they are the wrong way around. -/
theorem covers_piece {lo hi v : Int} : Covers (piece lo hi) v ↔ lo ≤ v ∧ v ≤ hi := by
  unfold piece
  split
  · simp [Covers, mem_def]
  · simp only [Covers, List.not_mem_nil, false_and, exists_false, false_iff]
    omega

/-- A piece within the range is canonical, be it empty or not. -/
theorem canonical_piece {lo hi : Int} (h1 : minValue ≤ lo) (h2 : hi ≤ maxValue) :
    Canonical (piece lo hi) := by
  unfold piece
  split
  · exact canonical_singleton ⟨h1, by assumption, h2⟩
  · exact canonical_nil

theorem of_mem_piece {lo hi : Int} {j : Interval} (h : j ∈ piece lo hi) :
    j = ⟨lo, hi⟩ ∧ lo ≤ hi := by
  unfold piece at h
  split at h
  · exact ⟨by simpa using h, by assumption⟩
  · simp at h

/-- The list without the integer `v`. -/
def erase (v : Int) (l : List Interval) : List Interval :=
  l.flatMap fun i => if v ∈ i then piece i.lo (v - 1) ++ piece (v + 1) i.hi else [i]

/-- The part of the list which is not below `v`. -/
def atLeast (v : Int) (l : List Interval) : List Interval :=
  l.flatMap fun i => piece (max i.lo v) i.hi

/-- The part of the list which is not above `v`. -/
def atMost (v : Int) (l : List Interval) : List Interval :=
  l.flatMap fun i => piece i.lo (min i.hi v)

/-- Erasing takes away the one value. -/
theorem covers_erase {l : List Interval} {v w : Int} :
    Covers (erase v l) w ↔ Covers l w ∧ w ≠ v := by
  simp only [erase, covers_flatMap]
  constructor
  · rintro ⟨i, hi, hc⟩
    split at hc
    · rename_i hv
      rw [Covers] at hc
      obtain ⟨j, hj, hm⟩ := hc
      rcases List.mem_append.mp hj with hj | hj
      all_goals
        obtain ⟨rfl, hle⟩ := of_mem_piece hj
        simp only [mem_def] at hm hv
        exact ⟨⟨i, hi, by simp only [mem_def]; omega⟩, by omega⟩
    · rename_i hv
      simp only [Covers, List.mem_singleton] at hc
      obtain ⟨j, rfl, hm⟩ := hc
      exact ⟨⟨j, hi, hm⟩, fun h => hv (h ▸ hm)⟩
  · rintro ⟨⟨i, hi, hm⟩, hne⟩
    refine ⟨i, hi, ?_⟩
    split
    · rename_i hv
      simp only [mem_def] at hm hv
      by_cases h : w < v
      · exact ⟨⟨i.lo, v - 1⟩, List.mem_append.mpr (Or.inl (by simp [piece]; omega)),
          by simp only [mem_def]; omega⟩
      · exact ⟨⟨v + 1, i.hi⟩, List.mem_append.mpr (Or.inr (by simp [piece]; omega)),
          by simp only [mem_def]; omega⟩
    · exact ⟨i, by simp, hm⟩

/-- Erasing may split an interval, and leaves a gap where it does. -/
theorem canonical_erase {l : List Interval} {v : Int} (h : Canonical l) :
    Canonical (erase v l) := by
  refine canonical_flatMap h ?_ ?_
  · intro i hi
    have hv := h.valid i hi
    split
    · rename_i hm
      simp only [Valid, mem_def] at hv hm
      constructor
      · intro j hj
        rcases List.mem_append.mp hj with hj | hj
        all_goals
          obtain ⟨rfl, hle⟩ := of_mem_piece hj
          simp only [Valid]
          omega
      · rw [List.pairwise_append]
        refine ⟨(canonical_piece (by omega) (by omega)).apart,
          (canonical_piece (by omega) (by omega)).apart, ?_⟩
        intro a ha b hb
        obtain ⟨rfl, _⟩ := of_mem_piece ha
        obtain ⟨rfl, _⟩ := of_mem_piece hb
        simp only [Before]
        omega
    · exact canonical_singleton hv
  · intro i hi j hj
    split at hj
    · rename_i hm
      simp only [mem_def] at hm
      rcases List.mem_append.mp hj with hj | hj
      all_goals
        obtain ⟨rfl, hle⟩ := of_mem_piece hj
        simp only
        omega
    · rw [List.mem_singleton.mp hj]
      omega

/-- Intervals that are clipped at both ends stay apart. -/
theorem canonical_clipped {l : List Interval} {lo hi : Interval → Int} (h : Canonical l)
    (hlo : ∀ i, i.lo ≤ lo i) (hhi : ∀ i, hi i ≤ i.hi) :
    Canonical (l.flatMap fun i => piece (lo i) (hi i)) := by
  refine canonical_flatMap h (fun i hi => ?_) fun i _ j hj => ?_
  · obtain ⟨hmin, _, hmax⟩ := h.valid i hi
    exact canonical_piece (Int.le_trans hmin (hlo i)) (Int.le_trans (hhi i) hmax)
  · obtain ⟨rfl, _⟩ := of_mem_piece hj
    exact ⟨hlo i, hhi i⟩

/-- A lower bound takes away the values below it. -/
theorem covers_atLeast {l : List Interval} {v w : Int} :
    Covers (atLeast v l) w ↔ Covers l w ∧ v ≤ w := by
  simp only [atLeast, covers_flatMap, covers_piece]
  constructor
  · rintro ⟨i, hi, h⟩
    exact ⟨⟨i, hi, by simp only [mem_def]; omega⟩, by omega⟩
  · rintro ⟨⟨i, hi, hm⟩, h⟩
    simp only [mem_def] at hm
    exact ⟨i, hi, by omega⟩

/-- A lower bound cuts off the front of each interval. -/
theorem canonical_atLeast {l : List Interval} {v : Int} (h : Canonical l) :
    Canonical (atLeast v l) :=
  canonical_clipped h (fun _ => Int.le_max_left ..) (fun _ => Int.le_refl _)

/-- An upper bound takes away the values above it. -/
theorem covers_atMost {l : List Interval} {v w : Int} :
    Covers (atMost v l) w ↔ Covers l w ∧ w ≤ v := by
  simp only [atMost, covers_flatMap, covers_piece]
  constructor
  · rintro ⟨i, hi, h⟩
    exact ⟨⟨i, hi, by simp only [mem_def]; omega⟩, by omega⟩
  · rintro ⟨⟨i, hi, hm⟩, h⟩
    simp only [mem_def] at hm
    exact ⟨i, hi, by omega⟩

/-- An upper bound cuts off the end of each interval. -/
theorem canonical_atMost {l : List Interval} {v : Int} (h : Canonical l) :
    Canonical (atMost v l) :=
  canonical_clipped h (fun _ => Int.le_refl _) (fun _ => Int.min_le_left ..)

/-! ## Walking two lists in step -/

/-- The integers which both lists cover. -/
def meet : List Interval → List Interval → List Interval
  | [], _ => []
  | _, [] => []
  | a :: as, b :: bs =>
      if a.hi < b.hi then piece (max a.lo b.lo) (min a.hi b.hi) ++ meet as (b :: bs)
      else piece (max a.lo b.lo) (min a.hi b.hi) ++ meet (a :: as) bs
termination_by l r => l.length + r.length

/-- Whether some integer is covered by both lists. -/
def overlap : List Interval → List Interval → Bool
  | [], _ => false
  | _, [] => false
  | a :: as, b :: bs =>
      if a.hi < b.lo then overlap as (b :: bs)
      else if b.hi < a.lo then overlap (a :: as) bs
      else true
termination_by l r => l.length + r.length

theorem covers_append {l r : List Interval} {v : Int} :
    Covers (l ++ r) v ↔ Covers l v ∨ Covers r v := by
  simp only [Covers, List.mem_append]
  constructor
  · rintro ⟨i, hi | hi, hm⟩
    · exact Or.inl ⟨i, hi, hm⟩
    · exact Or.inr ⟨i, hi, hm⟩
  · rintro (⟨i, hi, hm⟩ | ⟨i, hi, hm⟩)
    · exact ⟨i, Or.inl hi, hm⟩
    · exact ⟨i, Or.inr hi, hm⟩

/-- The meet covers what both lists cover. -/
theorem covers_meet {l r : List Interval} {v : Int} (hl : Canonical l) (hr : Canonical r) :
    Covers (meet l r) v ↔ Covers l v ∧ Covers r v := by
  fun_induction meet l r with
  | case1 r => simp [Covers]
  | case2 l => simp [Covers]
  | case3 a as b bs hlt ih =>
      rw [covers_append, covers_piece, ih (canonical_cons.mp hl).2.2 hr, covers_cons, covers_cons,
        mem_def, mem_def]
      have tl := @lt_of_covers_tail a as v hl
      have tr := @lt_of_covers_tail b bs v hr
      constructor
      · rintro (h | ⟨h1, h2⟩)
        · exact ⟨Or.inl (by omega), Or.inl (by omega)⟩
        · exact ⟨Or.inr h1, h2⟩
      · rintro ⟨h1 | h1, h2⟩
        · rcases h2 with h2 | h2
          · exact Or.inl (by omega)
          · have := tr h2; omega
        · exact Or.inr ⟨h1, h2⟩
  | case4 a as b bs hlt ih =>
      rw [covers_append, covers_piece, ih hl (canonical_cons.mp hr).2.2, covers_cons, covers_cons,
        mem_def, mem_def]
      have tl := @lt_of_covers_tail a as v hl
      have tr := @lt_of_covers_tail b bs v hr
      constructor
      · rintro (h | ⟨h1, h2⟩)
        · exact ⟨Or.inl (by omega), Or.inl (by omega)⟩
        · exact ⟨h1, Or.inr h2⟩
      · rintro ⟨h1, h2 | h2⟩
        · rcases h1 with h1 | h1
          · exact Or.inl (by omega)
          · have := tl h1; omega
        · exact Or.inr ⟨h1, h2⟩

/-- Every interval of a meet lies inside an interval of either list. -/
theorem mem_meet_inside {l r : List Interval} {j : Interval} (h : j ∈ meet l r) :
    (∃ a ∈ l, a.lo ≤ j.lo ∧ j.hi ≤ a.hi) ∧ (∃ b ∈ r, b.lo ≤ j.lo ∧ j.hi ≤ b.hi) := by
  fun_induction meet l r with
  | case1 r => simp at h
  | case2 l => simp at h
  | case3 a as b bs hlt ih =>
      rcases List.mem_append.mp h with h | h
      · obtain ⟨rfl, _⟩ := of_mem_piece h
        exact ⟨⟨a, List.mem_cons_self .., by simp only; omega⟩,
          ⟨b, List.mem_cons_self .., by simp only; omega⟩⟩
      · obtain ⟨⟨a', ha, hin⟩, hb⟩ := ih h
        exact ⟨⟨a', List.mem_cons_of_mem _ ha, hin⟩, hb⟩
  | case4 a as b bs hlt ih =>
      rcases List.mem_append.mp h with h | h
      · obtain ⟨rfl, _⟩ := of_mem_piece h
        exact ⟨⟨a, List.mem_cons_self .., by simp only; omega⟩,
          ⟨b, List.mem_cons_self .., by simp only; omega⟩⟩
      · obtain ⟨ha, ⟨b', hb, hin⟩⟩ := ih h
        exact ⟨ha, ⟨b', List.mem_cons_of_mem _ hb, hin⟩⟩

/-- The meet of canonical lists is canonical. -/
theorem canonical_meet {l r : List Interval} (hl : Canonical l) (hr : Canonical r) :
    Canonical (meet l r) := by
  -- the common piece of two heads lies before everything that lies after either of them
  have head : ∀ {a b : Interval} {rest : List Interval}, a.Valid → b.Valid → Canonical rest →
      (∀ j ∈ rest, a.Before j ∨ b.Before j) →
      Canonical (piece (max a.lo b.lo) (min a.hi b.hi) ++ rest) := by
    intro a b rest ha hb hc hbefore
    simp only [Valid] at ha hb
    have hp : Canonical (piece (max a.lo b.lo) (min a.hi b.hi)) :=
      canonical_piece (by omega) (by omega)
    constructor
    · intro j hj
      rcases List.mem_append.mp hj with hj | hj
      · exact hp.valid j hj
      · exact hc.valid j hj
    · rw [List.pairwise_append]
      refine ⟨hp.apart, hc.apart, ?_⟩
      intro x hx y hy
      obtain ⟨rfl, _⟩ := of_mem_piece hx
      rcases hbefore y hy with h | h
      all_goals
        simp only [Before] at *
        omega
  fun_induction meet l r with
  | case1 r => exact canonical_nil
  | case2 l => exact canonical_nil
  | case3 a as b bs hlt ih =>
      have hl' := canonical_cons.mp hl
      refine head hl'.1 (canonical_cons.mp hr).1 (ih hl'.2.2 hr) ?_
      intro j hj
      obtain ⟨⟨a', ha, hin⟩, _⟩ := mem_meet_inside hj
      have := hl'.2.1 a' ha
      simp only [Before] at *
      omega
  | case4 a as b bs hlt ih =>
      have hr' := canonical_cons.mp hr
      refine head (canonical_cons.mp hl).1 hr'.1 (ih hl hr'.2.2) ?_
      intro j hj
      obtain ⟨_, ⟨b', hb, hin⟩⟩ := mem_meet_inside hj
      have := hr'.2.1 b' hb
      simp only [Before] at *
      omega

/-- Two lists overlap exactly if both cover some value. -/
theorem overlap_iff {l r : List Interval} (hl : Canonical l) (hr : Canonical r) :
    overlap l r = true ↔ ∃ v, Covers l v ∧ Covers r v := by
  fun_induction overlap l r with
  | case1 r => simp [Covers]
  | case2 l => simp [Covers]
  | case3 a as b bs hlt ih =>
      rw [ih (canonical_cons.mp hl).2.2 hr]
      constructor
      · rintro ⟨v, h1, h2⟩
        exact ⟨v, covers_cons.mpr (Or.inr h1), h2⟩
      · rintro ⟨v, h1, h2⟩
        refine ⟨v, ?_, h2⟩
        rcases covers_cons.mp h1 with hm | h1
        -- the head of the left ends before the right begins, so no value is in both
        · rcases covers_cons.mp h2 with hm' | h2
          · simp only [mem_def] at hm hm'; omega
          · have hb := (canonical_cons.mp hr).1
            have := lt_of_covers_tail hr h2
            simp only [mem_def, Valid] at hm hb; omega
        · exact h1
  | case4 a as b bs hlt hlt' ih =>
      rw [ih hl (canonical_cons.mp hr).2.2]
      constructor
      · rintro ⟨v, h1, h2⟩
        exact ⟨v, h1, covers_cons.mpr (Or.inr h2)⟩
      · rintro ⟨v, h1, h2⟩
        refine ⟨v, h1, ?_⟩
        rcases covers_cons.mp h2 with hm | h2
        · rcases covers_cons.mp h1 with hm' | h1
          · simp only [mem_def] at hm hm'; omega
          · have ha := (canonical_cons.mp hl).1
            have := lt_of_covers_tail hl h1
            simp only [mem_def, Valid] at hm ha; omega
        · exact h2
  | case5 a as b bs h1 h2 =>
      have ha := (canonical_cons.mp hl).1
      have hb := (canonical_cons.mp hr).1
      simp only [Valid] at ha hb
      simp only [true_iff]
      -- neither head lies before the other, so the larger lower end is in both
      exact ⟨max a.lo b.lo, covers_cons.mpr (Or.inl (by simp only [mem_def]; omega)),
        covers_cons.mpr (Or.inl (by simp only [mem_def]; omega))⟩

/-! ## Adding an interval -/

/-- The list with the integers of `i` added: intervals which overlap or touch
    `i` are merged into it. -/
def insert (i : Interval) : List Interval → List Interval
  | [] => [i]
  | j :: rest =>
      if i.hi + 1 < j.lo then i :: j :: rest
      else if j.hi + 1 < i.lo then j :: insert i rest
      else insert ⟨min i.lo j.lo, max i.hi j.hi⟩ rest

/-- Inserting an interval adds its members. -/
theorem covers_insert {i : Interval} {l : List Interval} {v : Int} (hi : i.Valid)
    (hl : Canonical l) : Covers (insert i l) v ↔ v ∈ i ∨ Covers l v := by
  fun_induction insert i l with
  | case1 i => simp [Covers]
  | case2 i j rest h => rw [covers_cons]
  | case3 i j rest h h' ih =>
      rw [covers_cons, ih hi (canonical_cons.mp hl).2.2, covers_cons]
      exact or_left_comm
  | case4 i j rest h h' ih =>
      have hj := (canonical_cons.mp hl).1
      simp only [Valid] at hi hj
      rw [ih (by simp only [Valid]; omega) (canonical_cons.mp hl).2.2, covers_cons, ← or_assoc]
      refine or_congr_left ?_
      simp only [mem_def]
      omega

/-- No interval begins before all those it was put together from. -/
theorem lo_of_mem_insert {i k : Interval} {l : List Interval} (h : k ∈ insert i l) :
    i.lo ≤ k.lo ∨ ∃ j ∈ l, j.lo ≤ k.lo := by
  fun_induction insert i l with
  | case1 i => simp_all
  | case2 i j rest _ =>
      rcases List.mem_cons.mp h with rfl | h
      · exact Or.inl (Int.le_refl _)
      · exact Or.inr ⟨k, h, Int.le_refl _⟩
  | case3 i j rest _ _ ih =>
      rcases List.mem_cons.mp h with rfl | h
      · exact Or.inr ⟨k, List.mem_cons_self .., Int.le_refl _⟩
      · rcases ih h with h | ⟨m, hm, h⟩
        · exact Or.inl h
        · exact Or.inr ⟨m, List.mem_cons_of_mem _ hm, h⟩
  | case4 i j rest _ _ ih =>
      rcases ih h with h | ⟨m, hm, h⟩
      -- the inserted interval is the hull, which starts where one of the two does
      · simp only at h
        by_cases hlt : i.lo ≤ k.lo
        · exact Or.inl hlt
        · exact Or.inr ⟨j, List.mem_cons_self .., by omega⟩
      · exact Or.inr ⟨m, List.mem_cons_of_mem _ hm, h⟩

/-- Inserting a valid interval merges what it touches, so the list stays canonical. -/
theorem canonical_insert {i : Interval} {l : List Interval} (hi : i.Valid) (hl : Canonical l) :
    Canonical (insert i l) := by
  fun_induction insert i l with
  | case1 i => exact canonical_singleton hi
  | case2 i j rest h =>
      refine canonical_cons.mpr ⟨hi, ?_, hl⟩
      intro k hk
      have hj := canonical_cons.mp hl
      rcases List.mem_cons.mp hk with rfl | hk
      · exact h
      · have := hj.2.1 k hk
        have := hj.1
        simp only [Before, Valid] at *
        omega
  | case3 i j rest h h' ih =>
      have hj := canonical_cons.mp hl
      refine canonical_cons.mpr ⟨hj.1, ?_, ih hi hj.2.2⟩
      intro k hk
      rcases lo_of_mem_insert hk with hlo | ⟨m, hm, hlo⟩
      · simp only [Before]
        omega
      · have := hj.2.1 m hm
        simp only [Before] at *
        omega
  | case4 i j rest h h' ih =>
      have hj := canonical_cons.mp hl
      have hv := hj.1
      simp only [Valid] at hi hv
      -- the two touch, and what is inserted into the rest is their hull
      exact ih (by simp only [Valid]; omega) hj.2.2

/-- Adding several intervals, last one first. -/
def insertAll (is : List Interval) (l : List Interval) : List Interval :=
  is.foldr insert l

/-- Inserting valid intervals, in any order, keeps the list canonical. -/
theorem canonical_insertAll {is l : List Interval} (hi : ∀ i ∈ is, i.Valid) (hl : Canonical l) :
    Canonical (insertAll is l) := by
  induction is with
  | nil => exact hl
  | cons i is ih =>
      exact canonical_insert (hi i (List.mem_cons_self ..))
        (ih fun j hj => hi j (List.mem_cons_of_mem _ hj))

/-- Inserting intervals adds the members of all of them. -/
theorem covers_insertAll {is l : List Interval} {v : Int} (hi : ∀ i ∈ is, i.Valid)
    (hl : Canonical l) : Covers (insertAll is l) v ↔ Covers is v ∨ Covers l v := by
  induction is with
  | nil => simp [insertAll, Covers]
  | cons i is ih =>
      have hrest : ∀ j ∈ is, j.Valid := fun j hj => hi j (List.mem_cons_of_mem _ hj)
      have hstep := @covers_insert i (insertAll is l) v (hi i (List.mem_cons_self ..))
        (canonical_insertAll hrest hl)
      rw [ih hrest] at hstep
      rw [covers_cons, or_assoc]
      exact hstep

end Intervals

end ConstraintSolver
