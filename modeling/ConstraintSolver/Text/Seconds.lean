/-! # Seconds — a duration as a decimal number

    A duration is told in seconds, as the shortest decimal number which is
    nearer to it than to any other number of 53 significant bits.  Such a
    number is a mantissa and a power of two; the arithmetic is exact. -/

namespace ConstraintSolver

/-- The number `mantissa * 2 ^ exponent`. -/
structure Dyadic where
  mantissa : Nat
  exponent : Int
  deriving DecidableEq, Repr

namespace Dyadic

/-- The leading bit of a mantissa of 53 bits. -/
def leadingBit : Nat := 4503599627370496

/-- `num * 2 ^ power` as a fraction. -/
def scaled (num : Nat) (power : Int) : Nat × Nat :=
  if 0 ≤ power then (num <<< power.toNat, 1) else (num, 1 <<< (-power).toNat)

/-- The natural number nearest to a quotient; of two, the even one. -/
def nearest (num den : Nat) : Nat :=
  let q := num / den
  let r := num % den
  if 2 * r < den then q
  else if den < 2 * r then q + 1
  else if q % 2 = 0 then q
  else q + 1

/-- The number of 53 significant bits nearest to a quotient. -/
def ofQuotient (num den : Nat) : Dyadic :=
  if num = 0 then ⟨0, 0⟩
  else
    let guess : Int := (num.log2 : Int) - (den.log2 : Int) - 52
    let (n, d) := scaled num (-guess)
    let exponent := if n / (d * den) < leadingBit then guess - 1 else guess
    let (n, d) := scaled num (-exponent)
    let mantissa := nearest n (d * den)
    if mantissa = 2 * leadingBit then ⟨leadingBit, exponent + 1⟩ else ⟨mantissa, exponent⟩

/-- The number of 53 significant bits nearest to a sum. -/
def add (a b : Dyadic) : Dyadic :=
  let exponent := min a.exponent b.exponent
  let mantissa :=
    a.mantissa <<< (a.exponent - exponent).toNat
      + b.mantissa <<< (b.exponent - exponent).toNat
  let (n, d) := scaled mantissa exponent
  ofQuotient n d

/-- The multiple of `10 ^ -places` which is nearest to the number, if it is
    nearer to the number than to its neighbours.  Of two which are equally near it
    is the larger. -/
def atPlaces? (x : Dyadic) (places : Int) : Option Nat :=
  let (unitNum, unitDen) :=
    if 0 ≤ places then (1, Nat.pow 10 places.toNat) else (Nat.pow 10 (-places).toNat, 1)
  let (n, d) := scaled 1 (x.exponent - 2)
  -- In quarters of the last bit: the number, and the ends of its interval.
  let value := 4 * x.mantissa * n * unitDen
  let low := (4 * x.mantissa - if x.mantissa = leadingBit then 1 else 2) * n * unitDen
  let high := (4 * x.mantissa + 2) * n * unitDen
  let step := d * unitNum
  let below := value / step
  let inside := fun count =>
    if x.mantissa % 2 = 0 then low ≤ count * step && count * step ≤ high
    else low < count * step && count * step < high
  let candidates := [below, below + 1].filter fun count => inside count
  match candidates with
  | [] => none
  | [count] => some count
  | _ => if value - below * step < (below + 1) * step - value then some below else some (below + 1)

/-- The fewest places, from the given number on, which tell the number, and its
    digits. -/
def shortest (x : Dyadic) : Nat → Int → Int × Nat
  | 0, places => (places, 0)
  | more + 1, places =>
      match x.atPlaces? places with
      | some digits => (places, digits)
      | none => shortest x more (places + 1)

/-- A number of units of `10 ^ -places` in positional notation. -/
def positional (digits : Nat) (places : Int) : String :=
  if places ≤ 0 then toString (digits * Nat.pow 10 (-places).toNat)
  else
    let width := places.toNat
    let fraction := toString (digits % Nat.pow 10 width)
    toString (digits / Nat.pow 10 width) ++ "."
      ++ String.ofList (List.replicate (width - fraction.length) '0') ++ fraction

/-- The shortest decimal number that tells `x` from its neighbours. -/
def text (x : Dyadic) : String :=
  if x.mantissa = 0 then "0"
  else
    let (places, digits) := x.shortest 64 (-25)
    positional digits places

end Dyadic

/-- A duration in seconds: the whole seconds and the rest of it are rounded to
    53 bits before they are added. -/
def secondsText (nanoseconds : Nat) : String :=
  let billion := 1000000000
  ((Dyadic.ofQuotient (nanoseconds / billion) 1).add
    (Dyadic.ofQuotient (nanoseconds % billion) billion)).text

end ConstraintSolver
