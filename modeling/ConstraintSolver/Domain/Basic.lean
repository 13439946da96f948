import ConstraintSolver.Domain.Interval

/-! # Domains — finite sets of 32-bit integers

    A `Domain` is a canonical list of intervals, so two domains are equal
    exactly when they hold the same integers (`Domain.ext`).  The queries
    agree with each other: `values` lists the members in increasing order,
    `size` is its length, and `nth?` its elements by position. -/

namespace ConstraintSolver

/-- Why a set of values cannot be the domain of a variable. -/
inductive DomainError where
  /-- The lower bound is above the upper bound. -/
  | invalidBounds (lower upper : Int)
  /-- There are no values. -/
  | emptyValueSet
  deriving DecidableEq, Repr

/-- What the user reads about a set of values which is refused. -/
def DomainError.message : DomainError → String
  | .invalidBounds lower upper =>
      s!"the bounds [{lower}, {upper}] do not describe a valid domain"
  | .emptyValueSet => "a variable cannot be declared with an empty set of values"

/-- A finite set of 32-bit integers. -/
structure Domain where
  intervals : List Interval
  canonical : Canonical intervals
  deriving DecidableEq

namespace Domain

instance : Membership Int Domain := ⟨fun d v => Covers d.intervals v⟩

theorem mem_def {d : Domain} {v : Int} : v ∈ d ↔ ∃ i ∈ d.intervals, v ∈ i := Iff.rfl

/-- **EXTENSIONALITY**: a domain is determined by its members. -/
theorem ext {d e : Domain} (h : ∀ v, v ∈ d ↔ v ∈ e) : d = e := by
  cases d with
  | mk l hl =>
      cases e with
      | mk r hr =>
          have := Intervals.ext hl hr h
          subst this
          rfl

/-- Domains are equal exactly if they have the same members. -/
theorem ext_iff {d e : Domain} : d = e ↔ ∀ v, v ∈ d ↔ v ∈ e :=
  ⟨fun h _ => h ▸ Iff.rfl, ext⟩

/-- Members are 32-bit integers. -/
theorem inRange_of_mem {d : Domain} {v : Int} (h : v ∈ d) : InRange v :=
  Intervals.inRange_of_covers d.canonical h

/-! ## Making domains -/

/-- The domain without members. -/
def empty : Domain := ⟨[], Intervals.canonical_nil⟩

instance : EmptyCollection Domain := ⟨empty⟩

instance : Inhabited Domain := ⟨empty⟩

theorem not_mem_empty (v : Int) : v ∉ (∅ : Domain) := Intervals.not_covers_nil v

/-- The 32-bit integers from `lo` to `hi`. -/
def between (lo hi : Int) : Domain :=
  ⟨Intervals.piece (max minValue lo) (min maxValue hi),
    Intervals.canonical_piece (by omega) (by omega)⟩

/-- An interval has the members between its ends which are in the range. -/
theorem mem_between {lo hi v : Int} :
    v ∈ between lo hi ↔ InRange v ∧ lo ≤ v ∧ v ≤ hi := by
  show Covers _ _ ↔ _
  simp only [between, Intervals.covers_piece, InRange]
  omega

/-- The domain whose only member is `v`. -/
def singleton (v : Int) : Domain := between v v

theorem mem_singleton {v w : Int} : w ∈ singleton v ↔ InRange v ∧ w = v := by
  rw [singleton, mem_between]
  constructor
  · rintro ⟨h, h1, h2⟩
    obtain rfl : w = v := by omega
    exact ⟨h, rfl⟩
  · rintro ⟨h, rfl⟩
    exact ⟨h, by omega, by omega⟩

/-- One interval for every 32-bit integer of a list. -/
def points (vs : List Int) : List Interval :=
  (vs.filter fun v => decide (InRange v)).map fun v => ⟨v, v⟩

theorem valid_of_mem_points {vs : List Int} {i : Interval} (h : i ∈ points vs) : i.Valid := by
  obtain ⟨v, hv, rfl⟩ := List.mem_map.mp h
  have hr : InRange v := of_decide_eq_true (List.mem_filter.mp hv).2
  exact ⟨hr.1, Int.le_refl _, hr.2⟩

/-- The 32-bit integers among `vs`, in whatever order and however often they
    are listed. -/
def ofValues (vs : List Int) : Domain :=
  ⟨Intervals.insertAll (points vs) [],
    Intervals.canonical_insertAll (fun _ => valid_of_mem_points) Intervals.canonical_nil⟩

/-- A domain made from values has those in the range. -/
theorem mem_ofValues {vs : List Int} {v : Int} : v ∈ ofValues vs ↔ InRange v ∧ v ∈ vs := by
  refine (Intervals.covers_insertAll (fun _ => valid_of_mem_points)
    Intervals.canonical_nil).trans ?_
  simp only [Covers, List.not_mem_nil, false_and, exists_false, or_false, points, List.mem_map,
    List.mem_filter, decide_eq_true_eq]
  constructor
  · rintro ⟨i, ⟨w, ⟨hw, hr⟩, rfl⟩, hm⟩
    simp only [Interval.mem_def] at hm
    obtain rfl : v = w := by omega
    exact ⟨hr, hw⟩
  · rintro ⟨hr, hv⟩
    exact ⟨⟨v, v⟩, ⟨v, ⟨hv, hr⟩, rfl⟩, by simp [Interval.mem_def]⟩

/-! ## Queries -/

/-- Whether the domain has no members. -/
def isEmpty (d : Domain) : Bool := d.intervals.isEmpty

/-- A domain is empty exactly if it has no member. -/
theorem isEmpty_iff {d : Domain} : d.isEmpty = true ↔ ∀ v, v ∉ d := by
  simp only [isEmpty, List.isEmpty_iff]
  constructor
  · intro h v hv
    rw [mem_def, h] at hv
    simp at hv
  · intro h
    cases hl : d.intervals with
    | nil => rfl
    | cons i rest =>
        have hi : i ∈ d.intervals := by simp [hl]
        have hv := d.canonical.valid i hi
        exact absurd ⟨i, hi, ⟨Int.le_refl _, hv.2.1⟩⟩ (h i.lo)

/-- The domain that tells so is the empty one. -/
theorem eq_empty_of_isEmpty {d : Domain} (h : d.isEmpty = true) : d = ∅ :=
  ext fun v => iff_of_false (isEmpty_iff.mp h v) (not_mem_empty v)

/-- Whether `v` is a member. -/
def contains (d : Domain) (v : Int) : Bool := d.intervals.any fun i => decide (v ∈ i)

theorem contains_iff {d : Domain} {v : Int} : d.contains v = true ↔ v ∈ d := by
  simp [contains, mem_def]

instance (d : Domain) (v : Int) : Decidable (v ∈ d) :=
  decidable_of_iff _ contains_iff

/-- The smallest member. -/
def min? (d : Domain) : Option Int := d.intervals.head?.map Interval.lo

/-- The largest member. -/
def max? (d : Domain) : Option Int := d.intervals.getLast?.map Interval.hi

/-- The smallest member; for an empty domain the largest 32-bit integer. -/
def lowerBound (d : Domain) : Int := d.min?.getD maxValue

/-- The largest member; for an empty domain the smallest 32-bit integer. -/
def upperBound (d : Domain) : Int := d.max?.getD minValue

/-- The only member of a domain which has just one. -/
def fixedValue? (d : Domain) : Option Int :=
  match d.intervals with
  | [i] => if i.lo = i.hi then some i.lo else none
  | _ => none

/-- Whether the domain has exactly one member. -/
def isFixed (d : Domain) : Bool := d.fixedValue?.isSome

/-- A domain is fixed exactly if it has a single member. -/
theorem fixedValue?_eq_some_iff {d : Domain} {v : Int} :
    d.fixedValue? = some v ↔ d = singleton v ∧ InRange v := by
  constructor
  · intro h
    unfold fixedValue? at h
    split at h
    · rename_i i hi
      split at h
      · rename_i heq
        have hv : i.lo = v := Option.some.inj h
        have hval := d.canonical.valid i (by simp [hi])
        simp only [Interval.Valid] at hval
        have hr : InRange v := by simp only [InRange]; omega
        refine ⟨ext fun w => ?_, hr⟩
        rw [mem_def, mem_singleton, hi]
        simp only [List.mem_singleton, Interval.mem_def, exists_eq_left]
        constructor
        · exact fun hm => ⟨hr, by omega⟩
        · rintro ⟨_, rfl⟩
          omega
      · simp at h
    · simp at h
  · rintro ⟨rfl, h⟩
    simp only [InRange, fixedValue?, singleton, between, Intervals.piece] at *
    rw [if_pos (by omega)]
    simp only
    rw [if_pos (by omega)]
    congr 1
    omega

/-- The members in increasing order. -/
def values (d : Domain) : List Int := d.intervals.flatMap Interval.values

/-- The number of members. -/
def size (d : Domain) : Nat := Intervals.size d.intervals

/-- The values of a domain are its members. -/
theorem mem_values {d : Domain} {v : Int} : v ∈ d.values ↔ v ∈ d := by
  simp only [values, List.mem_flatMap, Interval.mem_values, mem_def]

/-- There are as many values as the size says. -/
theorem length_values (d : Domain) : d.values.length = d.size :=
  Intervals.length_flatMap_values d.intervals

/-- The members are listed in ascending order. -/
theorem values_ascending (d : Domain) : d.values.Pairwise (· < ·) := by
  rw [values, List.pairwise_flatMap]
  refine ⟨fun i _ => i.values_ascending, d.canonical.apart.imp ?_⟩
  intro a b hab v hv w hw
  rw [Interval.mem_values, Interval.mem_def] at hv hw
  simp only [Interval.Before] at hab
  omega

/-- No member is listed twice. -/
theorem nodup_values (d : Domain) : d.values.Nodup :=
  d.values_ascending.imp fun h => Int.ne_of_lt h

/-- The position-th smallest integer of a list of intervals. -/
def nthIn : List Interval → Nat → Option Int
  | [], _ => none
  | i :: rest, position =>
      if position < i.size then some (i.lo + Int.ofNat position)
      else nthIn rest (position - i.size)

/-- The member at a position of the increasing order, counted from 0. -/
def nth? (d : Domain) (position : Nat) : Option Int := nthIn d.intervals position

/-- The position counts the values in ascending order. -/
theorem nth?_eq (d : Domain) (position : Nat) : d.nth? position = d.values[position]? := by
  unfold nth? values
  induction d.intervals generalizing position with
  | nil => rfl
  | cons i rest ih =>
      rw [nthIn, List.flatMap_cons]
      split
      · rename_i h
        rw [List.getElem?_append_left (by rw [Interval.length_values]; exact h)]
        simp [Interval.values, h]
      · rename_i h
        rw [List.getElem?_append_right (by rw [Interval.length_values]; omega),
          Interval.length_values, ih]

/-- Whether the two domains have a member in common. -/
def overlaps (d e : Domain) : Bool := Intervals.overlap d.intervals e.intervals

/-- Two domains overlap exactly if they have a member in common. -/
theorem overlaps_iff {d e : Domain} : d.overlaps e = true ↔ ∃ v, v ∈ d ∧ v ∈ e :=
  Intervals.overlap_iff d.canonical e.canonical

/-! ## Set operations -/

/-- The members of either domain. -/
def union (d e : Domain) : Domain :=
  ⟨Intervals.insertAll e.intervals d.intervals,
    Intervals.canonical_insertAll e.canonical.valid d.canonical⟩

instance : Union Domain := ⟨union⟩

/-- The union has the members of both domains. -/
theorem mem_union {d e : Domain} {v : Int} : v ∈ d ∪ e ↔ v ∈ d ∨ v ∈ e :=
  (Intervals.covers_insertAll e.canonical.valid d.canonical).trans or_comm

/-- The union with another domain, and whether it has more members. -/
def absorb (d e : Domain) : Bool × Domain := (decide (d ∪ e ≠ d), d ∪ e)

/-- The members which both domains share. -/
def inter (d e : Domain) : Domain :=
  ⟨Intervals.meet d.intervals e.intervals, Intervals.canonical_meet d.canonical e.canonical⟩

instance : Inter Domain := ⟨inter⟩

/-- The intersection has the common members. -/
theorem mem_inter {d e : Domain} {v : Int} : v ∈ d ∩ e ↔ v ∈ d ∧ v ∈ e :=
  Intervals.covers_meet d.canonical e.canonical

/-- The domain with `offset` added to every member.  A sum which needs more
    than 32 bits becomes the nearest 32-bit integer. -/
def shift (d : Domain) (offset : Int) : Domain :=
  ⟨Intervals.insertAll
      (d.intervals.map fun i => ⟨saturate (i.lo + offset), saturate (i.hi + offset)⟩) [],
    Intervals.canonical_insertAll
      (by
        intro i hi
        obtain ⟨j, hj, rfl⟩ := List.mem_map.mp hi
        exact ⟨(inRange_saturate _).1,
          saturate_mono (by have := (d.canonical.valid j hj).2.1; omega), (inRange_saturate _).2⟩)
      Intervals.canonical_nil⟩

/-- A shifted domain has the sums with the offset, cut off at the ends of the range. -/
theorem mem_shift {d : Domain} {offset w : Int} :
    w ∈ d.shift offset ↔ ∃ v ∈ d, saturate (v + offset) = w := by
  show Covers _ _ ↔ _
  rw [shift, Intervals.covers_insertAll _ Intervals.canonical_nil]
  · simp only [Covers, List.not_mem_nil, false_and, exists_false, or_false, List.mem_map]
    constructor
    · rintro ⟨i, ⟨j, hj, rfl⟩, hm⟩
      have hv := (d.canonical.valid j hj).2.1
      simp only [Interval.mem_def] at hm
      -- the value of the interval that comes nearest before the shift
      refine ⟨max j.lo (min j.hi (w - offset)), ⟨j, hj, ?_⟩, ?_⟩
      · simp only [Interval.mem_def]; omega
      · simp only [saturate, minValue, maxValue] at *
        omega
    · rintro ⟨v, ⟨j, hj, hm⟩, rfl⟩
      simp only [Interval.mem_def] at hm
      exact ⟨_, ⟨j, hj, rfl⟩, saturate_mono (by omega), saturate_mono (by omega)⟩
  · intro i hi
    obtain ⟨j, hj, rfl⟩ := List.mem_map.mp hi
    exact ⟨(inRange_saturate _).1,
      saturate_mono (by have := (d.canonical.valid j hj).2.1; omega), (inRange_saturate _).2⟩

/-! ## Domains from user input -/

/-- The domain from `lower` to `upper`, which has to have a member. -/
def ofBounds? (lower upper : Int) : Except DomainError Domain :=
  let d := between lower upper
  if d.isEmpty then .error (.invalidBounds lower upper) else .ok d

/-- The domain of the given values, of which there has to be one. -/
def ofValues? (values : List Int) : Except DomainError Domain :=
  let d := ofValues values
  if d.isEmpty then .error .emptyValueSet else .ok d

end Domain

/-! ## Text -/

/-- An interval is written `lo..hi`, and a single integer as itself. -/
def Interval.text (i : Interval) : String :=
  if i.lo = i.hi then toString i.lo else toString i.lo ++ ".." ++ toString i.hi

/-- A domain is written as its intervals in braces, and a single member as
    itself. -/
def Domain.text (d : Domain) : String :=
  match d.fixedValue? with
  | some v => toString v
  | none => "\x7b" ++ ", ".intercalate (d.intervals.map Interval.text) ++ "\x7d"

end ConstraintSolver
