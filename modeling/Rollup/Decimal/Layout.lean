import Rollup.Decimal.Shortest

/-!
# Writing a double

A `Layout` holds the decisions of one written form of doubles: which sizes are written out
positionally, how an exponent looks, and the words for NaN and the infinities.  `Layout.write` lays
the shortest digits out accordingly.  The layouts in use are stated where the output that needs
them is described.
-/

namespace Rollup.Decimal

/-- The decisions of one written form of doubles. -/
structure Layout where
  /-- Whether a number whose first digit has this exponent is written without an exponent. -/
  positional : Int → Bool
  /-- Whether a whole number written positionally ends in a point and a zero. -/
  marksWhole : Bool
  /-- The sign in front of an exponent that is not negative. -/
  plus : List Char
  /-- The choice between two shortest decimals that are equally near. -/
  tie : Tie
  /-- What stands for NaN. -/
  nan : List Char
  /-- What stands for an infinity; the flag is set for the negative one. -/
  infinite : Bool → List Char

namespace Layout

/-- Decimal digits with the point after the digit of exponent 0. -/
def positionalText (l : Layout) (digits : List Char) (first : Int) : List Char :=
  if first < 0 then
    '0' :: '.' :: List.replicate (-first - 1).toNat '0' ++ digits
  else
    let whole := first.toNat + 1
    if digits.length ≤ whole then
      digits ++ List.replicate (whole - digits.length) '0' ++
        (if l.marksWhole then ['.', '0'] else [])
    else digits.take whole ++ '.' :: digits.drop whole

/-- An exponent with its sign. -/
def exponentText (l : Layout) (exponent : Int) : List Char :=
  if exponent < 0 then '-' :: Nat.toDigits 10 exponent.natAbs
  else l.plus ++ Nat.toDigits 10 exponent.natAbs

/-- One digit before the point, the others behind it, then the exponent. -/
def scientificText (l : Layout) (digits : List Char) (first : Int) : List Char :=
  digits.take 1 ++ (if digits.length ≤ 1 then [] else '.' :: digits.drop 1) ++
    'e' :: l.exponentText first

/-- The text of a number that is not negative. -/
def magnitudeText (l : Layout) (mantissa : Nat) (exponent : Int) : List Char :=
  if mantissa = 0 then l.positionalText ['0'] 0
  else
    let d := shortest l.tie mantissa exponent
    let digits := Nat.toDigits 10 d.digits
    let first := d.exponent + digits.length - 1
    if l.positional first then l.positionalText digits first else l.scientificText digits first

/-- The characters of a double in this layout. -/
def chars (l : Layout) (x : Float) : List Char :=
  match Binary64.decode x with
  | .nan => l.nan
  | .infinite negative => l.infinite negative
  | .finite negative m e => (if negative then ['-'] else []) ++ l.magnitudeText m e

/-- The text of a double in this layout. -/
def write (l : Layout) (x : Float) : String := String.ofList (l.chars x)

end Layout

end Rollup.Decimal
