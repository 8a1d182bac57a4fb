import Rollup.Decimal.Layout
import Rollup.Decimal.Literal
import Rollup.Text.Quoted

/-!
# JSON trees

A tree keeps what its text says: members stand in written order, repeated names included.  A number
without fraction and exponent is an `int` if a 64-bit word holds it, signed or unsigned; every other
number is the double nearest to it, and minus zero is a double as well.

`Json.chars` writes a tree without blanks.
-/

namespace Rollup

/-- A JSON value as written. -/
inductive Json
  | null
  | bool (b : Bool)
  | int (n : Int)
  | float (x : Float)
  | text (s : String)
  | list (items : List Json)
  | object (members : List (String × Json))
deriving Repr

namespace Json

instance : Inhabited Json := ⟨.null⟩

/-- The tree of a number, unless it is beyond the largest double. -/
def ofLiteral? (l : Decimal.Literal) : Option Json :=
  let n := l.toInt
  let isWord := -0x8000000000000000 ≤ n ∧ n < 0x10000000000000000
  if l.isPlain ∧ ¬(l.negative ∧ n = 0) ∧ isWord then some (.int n)
  else l.nearest?.map .float

/-- Doubles in JSON: an exponent from 1e16 up and below 1e-5, always a point or an exponent, a sign
before every exponent, `null` for what is no number. -/
def floatLayout : Decimal.Layout where
  positional p := -5 ≤ p && p < 16
  marksWhole := true
  plus := ['+']
  tie := .even
  nan := ['n', 'u', 'l', 'l']
  infinite _ := ['n', 'u', 'l', 'l']

/-- The characters of a whole number. -/
def intChars (n : Int) : List Char :=
  if n < 0 then '-' :: Nat.toDigits 10 n.natAbs else Nat.toDigits 10 n.natAbs

mutual

/-- The characters of a tree, without blanks. -/
def chars : Json → List Char
  | .null => ['n', 'u', 'l', 'l']
  | .bool true => ['t', 'r', 'u', 'e']
  | .bool false => ['f', 'a', 'l', 's', 'e']
  | .int n => intChars n
  | .float x => floatLayout.chars x
  | .text s => Text.Quoted.encode s.toList
  | .list [] => ['[', ']']
  | .list (item :: items) => '[' :: item.chars ++ itemChars items ++ [']']
  | .object [] => ['{', '}']
  | .object (m :: members) =>
    '{' :: Text.Quoted.encode m.1.toList ++ ':' :: m.2.chars ++ memberChars members ++ ['}']

/-- The items after the first, each behind a comma. -/
def itemChars : List Json → List Char
  | [] => []
  | item :: items => ',' :: item.chars ++ itemChars items

/-- The members after the first, each behind a comma. -/
def memberChars : List (String × Json) → List Char
  | [] => []
  | m :: members =>
    ',' :: Text.Quoted.encode m.1.toList ++ ':' :: m.2.chars ++ memberChars members

end

/-- The text of a tree. -/
def render (j : Json) : String := String.ofList j.chars

/-- The value of the last member with this name. -/
def member? (name : String) : Json → Option Json
  | .object members => (members.reverse.find? fun m => m.1 = name).map Prod.snd
  | _ => none

end Json

end Rollup
