import Rollup.Binary64

/-!
# Reading a decimal

A literal is a sign, whole digits, and optionally a fraction and an exponent.  It denotes a rational
number, and `Literal.nearest?` is the double nearest to that number, unless the number is beyond the
largest double.
-/

namespace Rollup.Decimal

/-- A number as it is written.  `fraction` and `exponent` are absent where the text has none. -/
structure Literal where
  negative : Bool
  whole : List Char
  fraction : Option (List Char)
  exponent : Option Int
deriving Repr, DecidableEq

/-- The value of a decimal digit. -/
def digitValue (c : Char) : Nat := c.toNat - '0'.toNat

/-- The number that a list of decimal digits denotes. -/
def natOfDigits (digits : List Char) : Nat :=
  digits.foldl (fun n c => 10 * n + digitValue c) 0

namespace Literal

/-- Whether the literal has neither a fraction nor an exponent. -/
def isPlain (l : Literal) : Bool := l.fraction.isNone && l.exponent.isNone

/-- The whole number of a plain literal. -/
def toInt (l : Literal) : Int := Binary64.signed l.negative (natOfDigits l.whole)

/-- The double nearest to the literal, or nothing where that is infinite. -/
def nearest? (l : Literal) : Option Float :=
  let fraction := l.fraction.getD []
  let digits := natOfDigits (l.whole ++ fraction)
  let exponent := l.exponent.getD 0 - fraction.length
  let magnitude := Float.ofScientific digits (exponent < 0) exponent.natAbs
  if magnitude.isInf then none else some (if l.negative then -magnitude else magnitude)

end Literal

end Rollup.Decimal
