import ConstraintSolver.Domain.Pruning

/-! # Words — domains in arithmetic of fixed width

    The operations of the other modules reckon with integers of any size and
    look at every interval.  Here they are carried out in words: a sum which
    does not fit its word has no result, and neither has an operation whose
    result breaks the rule it asserts.  An integer is looked up by halving
    the list, the one interval which holds it is changed in place, lists are
    sorted and merged from left to right, and whether something changed is
    read off the path taken.

    The two agree: nothing here is ever without a result, and the results
    are those of `Domain.pruned`, `Domain.ofValues?`, `Domain.absorb`,
    `Domain.shift`, `Domain.size` and `Domain.nth?`. -/

namespace ConstraintSolver

/-! ## Sums -/

/-- The number of words of 32 bits. -/
def wordRange : Nat := 4294967296

/-- The number of words of 64 bits. -/
def longWordRange : Nat := 18446744073709551616

/-- The integer, if it fits a word of 32 bits. -/
def word? (v : Int) : Option Int := if InRange v then some v else none

/-- The integer, if it fits a word of 64 bits. -/
def longWord? (v : Int) : Option Int :=
  if -9223372036854775808 ≤ v ∧ v ≤ 9223372036854775807 then some v else none

/-- The number, if it fits a word of 64 bits without a sign. -/
def counter? (n : Nat) : Option Nat := if n < longWordRange then some n else none

/-- The bits of a signed word of 64 bits, read without a sign. -/
def toCounter (v : Int) : Nat := (v % longWordRange).toNat

/-- The bits of an unsigned word of 64 bits, read with a sign. -/
def ofCounter (n : Nat) : Int := Int.bmod n longWordRange

/-- The lower 32 bits of a word, read with a sign. -/
def lowerWord (v : Int) : Int := Int.bmod v wordRange

@[simp] theorem word?_of_inRange {v : Int} (h : InRange v) : word? v = some v := if_pos h

/-- A long word has room for the difference of two words, and one more. -/
theorem longWord?_of_le {v : Int} (h : minValue - maxValue ≤ v) (h' : v ≤ maxValue - minValue + 1) :
    longWord? v = some v := by
  refine if_pos ?_
  simp only [minValue, maxValue] at h h'
  omega

theorem longWord?_succ {v : Int} (h : InRange v) : longWord? (v + 1) = some (v + 1) := by
  simp only [InRange, minValue, maxValue] at h
  exact longWord?_of_le (by simp only [minValue, maxValue]; omega)
    (by simp only [minValue, maxValue]; omega)

@[simp] theorem counter?_of_lt {n : Nat} (h : n < longWordRange) : counter? n = some n := if_pos h

theorem toCounter_of_lt {v : Int} (h : 0 ≤ v) (h' : v < longWordRange) :
    toCounter v = v.toNat := by
  rw [toCounter, Int.emod_eq_of_lt h h']

theorem ofCounter_of_le {n : Nat} (h : n ≤ wordRange) : ofCounter n = n := by
  simp only [wordRange] at h
  exact Int.bmod_eq_of_le (by simp only [longWordRange]; omega)
    (by simp only [longWordRange]; omega)

theorem lowerWord_of_inRange {v : Int} (h : InRange v) : lowerWord v = v := by
  simp only [InRange, minValue, maxValue] at h
  exact Int.bmod_eq_of_le (by simp only [wordRange]; omega) (by simp only [wordRange]; omega)

namespace Interval

/-- Whether the interval lies below the integer, holds it, or lies above. -/
def side (i : Interval) (v : Int) : Ordering :=
  if i.hi < v then .lt else if v < i.lo then .gt else .eq

/-- The number of integers in the interval. -/
def size? (i : Interval) : Option Nat := do
  let span ← longWord? (i.hi - i.lo)
  let count ← longWord? (span + 1)
  some (toCounter count)

end Interval

namespace Intervals

open ConstraintSolver.Interval

/-! ## Looking an integer up -/

/-- The position of an interval which holds `v`, sought from `start` on and
    before `stop`: the interval in the middle tells on which side to go on. -/
def seek (l : List Interval) (v : Int) (start stop : Nat) (h : stop ≤ l.length) : Option Nat :=
  if hlt : start < stop then
    have hmiddle : start + (stop - start) / 2 < l.length := by omega
    match l[start + (stop - start) / 2].side v with
    | .lt => seek l v (start + (stop - start) / 2 + 1) stop h
    | .eq => some (start + (stop - start) / 2)
    | .gt => seek l v start (start + (stop - start) / 2) (by omega)
  else none
termination_by stop - start

/-- The position of an interval which holds `v`. -/
def positionOf (l : List Interval) (v : Int) : Option Nat := seek l v 0 l.length (Nat.le_refl _)

/-! ## What a mutation reports -/

/-- Whether neighbours leave a gap of at least one integer. -/
def apart? : List Interval → Option Bool
  | a :: b :: rest => do
      let next ← longWord? (a.hi + 1)
      if next < b.lo then apart? (b :: rest) else some false
  | _ => some true

/-- Whether the list is one that a domain may have. -/
def normalised? (l : List Interval) : Option Bool :=
  if l.all fun i => i.lo ≤ i.hi then apart? l else some false

/-- What is reported of a list which was changed, provided that it is one that
    a domain may have. -/
def report? (l : List Interval) : Option (Domain.Effect × List Interval) := do
  let normalised ← normalised? l
  if normalised then some (if l.isEmpty then .emptied else .shrunk, l) else none

/-! ## Mutations -/

/-- Takes `v` out of the interval `i` at position `k`, which holds it: the
    interval goes, loses an end, or falls in two. -/
def takeApart? (v : Int) (l : List Interval) (k : Nat) (i : Interval) :
    Option (Domain.Effect × List Interval) :=
  if i.lo = i.hi then report? (l.eraseIdx k)
  else if v = i.lo then do
    let lo ← word? (i.lo + 1)
    report? (l.set k ⟨lo, i.hi⟩)
  else if v = i.hi then do
    let hi ← word? (i.hi - 1)
    report? (l.set k ⟨i.lo, hi⟩)
  else do
    let hi ← word? (v - 1)
    let lo ← word? (v + 1)
    report? ((l.set k ⟨i.lo, hi⟩).insertIdx (k + 1) ⟨lo, i.hi⟩)

/-- Takes `v` out of the interval which holds it, if there is one. -/
def removeValue? (v : Int) (l : List Interval) : Option (Domain.Effect × List Interval) :=
  if l.isEmpty then some (.emptied, l)
  else
    match positionOf l v with
    | none => some (.unchanged, l)
    | some k => do
        let i ← l[k]?
        takeApart? v l k i

/-- Drops the intervals which end below `v`, and starts the first one left at
    `v` or above. -/
def removeBelow? (v : Int) (l : List Interval) : Option (Domain.Effect × List Interval) :=
  if l.isEmpty then some (.emptied, l)
  else if v ≤ (l.head?.map Interval.lo).getD maxValue then some (.unchanged, l)
  else
    report? ((l.filter fun i => v ≤ i.hi).modifyHead fun first => ⟨max first.lo v, first.hi⟩)

/-- The list with its last interval changed. -/
def modifyLast (f : Interval → Interval) (l : List Interval) : List Interval :=
  l.dropLast ++ (l.getLast?.map f).toList

@[simp] theorem modifyLast_concat (f : Interval → Interval) (l : List Interval) (i : Interval) :
    modifyLast f (l ++ [i]) = l ++ [f i] := by
  simp [modifyLast]

@[simp] theorem modifyLast_cons_cons (f : Interval → Interval) (i j : Interval)
    (l : List Interval) : modifyLast f (i :: j :: l) = i :: modifyLast f (j :: l) := by
  simp [modifyLast]

/-- Drops the intervals which start above `v`, and ends the last one left at
    `v` or below. -/
def removeAbove? (v : Int) (l : List Interval) : Option (Domain.Effect × List Interval) :=
  if l.isEmpty then some (.emptied, l)
  else if (l.getLast?.map Interval.hi).getD minValue ≤ v then some (.unchanged, l)
  else
    report? (modifyLast (fun last => ⟨last.lo, min last.hi v⟩) (l.filter fun i => i.lo ≤ v))

/-- Keeps what both lists cover; nothing has changed if that is the first list. -/
def intersectWith? (r l : List Interval) : Option (Domain.Effect × List Interval) :=
  if l.isEmpty then some (.emptied, l)
  else if meet l r = l then some (.unchanged, l)
  else report? (meet l r)

/-- Takes out of the list what the restriction does not allow. -/
def prune? : Pruning → List Interval → Option (Domain.Effect × List Interval)
  | .except v => removeValue? v
  | .atLeast v => removeBelow? v
  | .atMost v => removeAbove? v
  | .within e => intersectWith? e.intervals

/-! ## Constructions -/

/-- Puts an interval after a list, or merges it into the last interval when it
    overlaps or touches it. -/
def mergeLast? (merged : List Interval) (i : Interval) : Option (List Interval) :=
  match merged.getLast? with
  | none => some [i]
  | some last => do
      let next ← longWord? (last.hi + 1)
      if i.lo ≤ next then some (modifyLast (fun last => ⟨last.lo, max last.hi i.hi⟩) merged)
      else some (merged ++ [i])

/-- Merges the intervals of a list from left to right. -/
def mergeAll? (l : List Interval) : Option (List Interval) := l.foldlM mergeLast? []

/-- Sorts the intervals by their lower ends, and merges those which overlap or
    touch. -/
def normalise? (l : List Interval) : Option (List Interval) :=
  mergeAll? (l.mergeSort fun a b => a.lo ≤ b.lo)

/-- The intervals of the listed values, of which there has to be one. -/
def fromValues? (values : List Int) : Option (Except DomainError (List Interval)) :=
  if values.isEmpty then some (.error .emptyValueSet)
  else do
    let merged ← mergeAll? ((values.mergeSort fun a b => a ≤ b).map fun v => ⟨v, v⟩)
    some (.ok merged)

/-- A count with the integers of one more interval. -/
def addSize? (total : Nat) (i : Interval) : Option Nat := do
  let count ← i.size?
  counter? (total + count)

/-- The number of integers in disjoint intervals. -/
def size? (l : List Interval) : Option Nat := l.foldlM addSize? 0

/-- Adds the intervals of the second list, and tells whether the number of
    integers has changed. -/
def unionWith? (l r : List Interval) : Option (Bool × List Interval) := do
  let before ← size? l
  let merged ← normalise? (l ++ r)
  let after ← size? merged
  some (after != before, merged)

/-- Adds `offset` to both ends of every interval, up to the limits of a word. -/
def shifted? (offset : Int) (l : List Interval) : Option (List Interval) :=
  normalise? (l.map fun i => ⟨saturate (i.lo + offset), saturate (i.hi + offset)⟩)

/-! ## The integer at a position -/

/-- The `index`-th smallest integer: whole intervals are counted off until the
    rest of the index falls into one. -/
def nth? : List Interval → Nat → Option (Option Int)
  | [], _ => some none
  | i :: rest, index => do
      let count ← i.size?
      if index < count then
        let v ← longWord? (i.lo + ofCounter index)
        some (some (lowerWord v))
      else nth? rest (index - count)

end Intervals

end ConstraintSolver
