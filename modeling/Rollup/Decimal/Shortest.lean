import Rollup.Binary64

/-!
# The shortest decimal that reads back

Many decimals read back as the same double: all those in the interval of reals that round to it.
`shortest` picks the one with the fewest digits, and of several the nearest.  It looks at the
decimal grids of 1, 2, … 17 digits in turn.  If any point of a grid lies in the interval, then so
does one of the value's two neighbours on that grid, so only those two are tested, in exact
arithmetic on whole numbers.

An exact tie between the two neighbours is left to the caller (`Tie`), because writers differ there.
-/

namespace Rollup.Decimal

/-- Which of two equally near decimals is taken. -/
inductive Tie
  | even
  | up
deriving Repr, DecidableEq

/-- The positive number `digits · 10 ^ exponent`. -/
structure Scientific where
  digits : Nat
  exponent : Int
deriving Repr, DecidableEq

/-- The reals that round to a positive double, in units of `numerator / denominator`: those between
`lower` and `upper`, the ends included if `closed`. -/
structure Neighbourhood where
  value : Nat
  lower : Nat
  upper : Nat
  closed : Bool
  numerator : Nat
  denominator : Nat
deriving Repr

/-- The neighbourhood of `mantissa · 2 ^ exponent`, in quarters of its last place.  Below a power of
two the doubles lie twice as close, except at the least exponent. -/
def Neighbourhood.of (mantissa : Nat) (exponent : Int) : Neighbourhood where
  value := 4 * mantissa
  lower :=
    if mantissa = 0x10000000000000 ∧ -1074 < exponent then 4 * mantissa - 1 else 4 * mantissa - 2
  upper := 4 * mantissa + 2
  closed := mantissa % 2 = 0
  numerator := Nat.pow 2 (exponent - 2).toNat
  denominator := Nat.pow 2 (2 - exponent).toNat

/-- The same neighbourhood measured in units of `10 ^ k`. -/
def Neighbourhood.scale (b : Neighbourhood) (k : Int) : Neighbourhood :=
  { b with
    numerator := b.numerator * Nat.pow 10 (-k).toNat
    denominator := b.denominator * Nat.pow 10 k.toNat }

/-- The whole number of units below the value. -/
def Neighbourhood.floor (b : Neighbourhood) : Nat := b.value * b.numerator / b.denominator

/-- Whether `n` units lie in the neighbourhood. -/
def Neighbourhood.holds (b : Neighbourhood) (n : Nat) : Bool :=
  if b.closed then
    b.lower * b.numerator ≤ n * b.denominator && n * b.denominator ≤ b.upper * b.numerator
  else b.lower * b.numerator < n * b.denominator && n * b.denominator < b.upper * b.numerator

/-- The number of units nearest to the value, of the two around it that lie in the neighbourhood. -/
def Neighbourhood.nearest? (b : Neighbourhood) (tie : Tie) : Option Nat :=
  let below := b.floor
  let above := below + 1
  match b.holds below, b.holds above with
  | false, false => none
  | true, false => some below
  | false, true => some above
  | true, true =>
    let excess := b.value * b.numerator - below * b.denominator
    let lack := above * b.denominator - b.value * b.numerator
    if excess < lack then some below
    else if lack < excess then some above
    else match tie with
      | .up => some above
      | .even => some (if below % 2 = 0 then below else above)

/-- The number of decimal digits of a positive number. -/
def digitCount (n : Nat) : Nat := (Nat.toDigits 10 n).length

/-- The exponent of the first digit of `numerator / denominator`: the greatest `p` with
`10 ^ p` not above it. -/
def leadingExponent (numerator denominator : Nat) : Int :=
  if denominator ≤ numerator then digitCount (numerator / denominator) - 1
  else -(digitCount ((denominator + numerator - 1) / numerator - 1) : Int)

/-- Moves the trailing zeros of the digits into the exponent. -/
def Scientific.trim (d : Scientific) : Scientific :=
  if 0 < d.digits ∧ d.digits % 10 = 0 then
    Scientific.trim ⟨d.digits / 10, d.exponent + 1⟩
  else d
termination_by d.digits
decreasing_by omega

/-- The decimal with the fewest digits that reads back as `mantissa · 2 ^ exponent`, and of those
the nearest. -/
def shortest (tie : Tie) (mantissa : Nat) (exponent : Int) : Scientific :=
  let b := Neighbourhood.of mantissa exponent
  let first := leadingExponent (b.value * b.numerator) b.denominator
  let onGrid (n : Nat) : Option Scientific :=
    ((b.scale (first - n)).nearest? tie).map fun digits => ⟨digits, first - n⟩
  (((List.range 17).findSome? onGrid).getD ⟨b.floor, 0⟩).trim

end Rollup.Decimal
