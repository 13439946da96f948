import ConstraintSolver.Error

/-! # Random indices

    A source of randomness answers requests for an index below a bound.  The
    seeded generator mixes four 64-bit words (xoshiro256++) which a linear
    congruential generator fills from the seed.  A request draws 64 bits and
    scales them to the bound; draws that would favour some indices are
    rejected and drawn again. -/

namespace ConstraintSolver

/-- A state from which random indices can be drawn. -/
class RandomSource (ρ : Type) where
  /-- An index below `bound`, and the next state. -/
  draw : ρ → (bound : Nat) → Except Misuse (Nat × ρ)

/-- The four words of the seeded generator. -/
structure Xoshiro where
  s0 : UInt64
  s1 : UInt64
  s2 : UInt64
  s3 : UInt64
  deriving DecidableEq, Repr

namespace Xoshiro

/-- The bits of a word moved to the left, those that leave coming back on the
    right. -/
def rotateLeft (x : UInt64) (count : UInt64) : UInt64 := (x <<< count) ||| (x >>> (64 - count))

/-- The bits of a half word moved to the right, those that leave coming back
    on the left. -/
def rotateRight (x : UInt32) (count : UInt32) : UInt32 := (x >>> count) ||| (x <<< (32 - count))

/-- One step of the generator that turns a seed into state: a half word, and
    the next seed. -/
def seedStep (seed : UInt64) : UInt32 × UInt64 :=
  let next := seed * 6364136223846793005 + 11634580027462260723
  let mixed := (((next >>> 18) ^^^ next) >>> 27).toUInt32
  (rotateRight mixed (next >>> 59).toUInt32, next)

/-- A word made of two half words, the low one first. -/
def seedWord (seed : UInt64) : UInt64 × UInt64 :=
  let (low, seed) := seedStep seed
  let (high, seed) := seedStep seed
  (low.toUInt64 ||| (high.toUInt64 <<< 32), seed)

/-- The state for a seed. -/
def ofSeed (seed : UInt64) : Xoshiro :=
  let (s0, seed) := seedWord seed
  let (s1, seed) := seedWord seed
  let (s2, seed) := seedWord seed
  let (s3, _) := seedWord seed
  ⟨s0, s1, s2, s3⟩

/-- 64 random bits, and the next state. -/
def next (x : Xoshiro) : UInt64 × Xoshiro :=
  let result := rotateLeft (x.s0 + x.s3) 23 + x.s0
  let t := x.s1 <<< 17
  let s2 := x.s2 ^^^ x.s0
  let s3 := x.s3 ^^^ x.s1
  let s1 := x.s1 ^^^ s2
  let s0 := x.s0 ^^^ s3
  (result, ⟨s0, s1, s2 ^^^ t, rotateLeft s3 45⟩)

/-- The number of 64-bit words. -/
def wordCount : Nat := 18446744073709551616

/-- The largest low half of a product that is not rejected: the largest
    multiple of the bound by a power of two, less one. -/
def zone (bound : Nat) : Nat := bound <<< (63 - bound.log2) - 1

/-- Draws until a draw is not rejected, at most `attempts` times more. -/
def sample (bound : Nat) : Nat → Xoshiro → Nat × Xoshiro
  | 0, x =>
      let (word, x) := x.next
      (word.toNat * bound / wordCount, x)
  | attempts + 1, x =>
      let (word, x) := x.next
      let product := word.toNat * bound
      if product % wordCount ≤ zone bound then (product / wordCount, x)
      else sample bound attempts x

/-- An index of the range from `start` up to but without `stop`. -/
def drawFrom (x : Xoshiro) (start stop : Nat) : Except Misuse (Nat × Xoshiro) :=
  if start < stop then
    let (offset, x) := sample (stop - start) wordCount x
    .ok (start + offset, x)
  else .error .emptyRange

end Xoshiro

/-- A source of indices: seeded, or repeating a list of choices. -/
inductive Generator where
  /-- Indices from the seeded generator. -/
  | seeded (state : Xoshiro)
  /-- The choices in turn, starting at `position`, each modulo the bound. -/
  | scripted (choices : Array Nat) (position : Nat)
  deriving DecidableEq, Repr

namespace Generator

/-- The seeded generator for a seed. -/
def ofSeed (seed : UInt64) : Generator := .seeded (.ofSeed seed)

/-- The generator which repeats a list of choices; without choices it always
    answers the first index. -/
def ofChoices (choices : List Nat) : Generator := .scripted choices.toArray 0

/-- An index below `bound`. -/
def draw (g : Generator) (bound : Nat) : Except Misuse (Nat × Generator) :=
  match g with
  | .seeded state =>
      match state.drawFrom 0 bound with
      | .ok (index, state) => .ok (index, .seeded state)
      | .error e => .error e
  | .scripted choices position =>
      let choice := (choices[position % choices.size]?).getD 0
      .ok (if bound = 0 then 0 else choice % bound, .scripted choices (position + 1))

instance : RandomSource Generator := ⟨draw⟩

end Generator

end ConstraintSolver
