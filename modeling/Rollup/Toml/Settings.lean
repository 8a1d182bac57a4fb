import Rollup.Decimal.Literal
import Rollup.Toml.Text

/-!
# Settings in TOML

`Settings.ofString?` reads a TOML document that assigns whole numbers and strings to plain names.
Every other document is refused: one that is not TOML, one that names a setting twice, and one that
uses a table, a dotted name or another kind of value, none of which a setting could hold.
-/

namespace Rollup.Toml

/-- The value of a setting. -/
inductive Scalar
  | integer (n : Int)
  | text (s : String)
deriving Repr, DecidableEq

/-! ## Whole numbers -/

/-- The value of a digit to a base. -/
def digit? (base : Nat) (c : Char) : Option Nat := (Text.hexValue? c).filter (· < base)

/-- The value of digits to a base, behind digits with a value already read.  A single underscore may
stand between digits; `digitBefore` says whether one may come next. -/
def continueDigits? (base : Nat) (digitBefore : Bool) (value : Nat) : List Char → Option Nat
  | [] => if digitBefore then some value else none
  | c :: rest =>
    if c = '_' then
      if digitBefore then continueDigits? base false value rest else none
    else (digit? base c).bind fun d => continueDigits? base true (base * value + d) rest

/-- The value of digits to a base. -/
def natOfGroups? (base : Nat) (cs : List Char) : Option Nat := continueDigits? base false 0 cs

/-- A decimal number without a superfluous zero in front. -/
def decimal? (cs : List Char) : Option Nat :=
  match cs with
  | '0' :: _ :: _ => none
  | _ => natOfGroups? 10 cs

/-- A whole number.  Only a decimal one may have a sign. -/
def integer? (cs : List Char) : Option Int :=
  match cs with
  | '0' :: 'x' :: rest => (natOfGroups? 16 rest).map Int.ofNat
  | '0' :: 'o' :: rest => (natOfGroups? 8 rest).map Int.ofNat
  | '0' :: 'b' :: rest => (natOfGroups? 2 rest).map Int.ofNat
  | '+' :: rest => (decimal? rest).map Int.ofNat
  | '-' :: rest => (decimal? rest).map fun n => -(n : Int)
  | _ => (decimal? cs).map Int.ofNat

/-! ## Statements -/

/-- Drops spaces and tabs at the front. -/
def dropBlanks (cs : List Char) : List Char := cs.dropWhile fun c => c = ' ' || c = '\t'

/-- Whether a character may stand in a name that is not quoted. -/
def isBare (c : Char) : Bool := c.isAlphanum || c = '_' || c = '-'

/-- The name at the front of a text. -/
def scanName? (cs : List Char) : Option (List Char × List Char) :=
  match cs with
  | '"' :: rest => Style.scan ⟨'"', true, false⟩ .plain rest
  | '\'' :: rest => Style.scan ⟨'\'', false, false⟩ .plain rest
  | _ =>
    let name := cs.takeWhile isBare
    if name = [] then none else some (name, cs.dropWhile isBare)

/-- The value at the front of a text. -/
def scanScalar? (cs : List Char) : Option (Scalar × List Char) :=
  match cs.head? with
  | some '"' | some '\'' =>
    (scanString? cs).map fun r => (.text (String.ofList r.1), r.2)
  | _ =>
    let isPart (c : Char) : Bool := isBare c || c = '+'
    (integer? (cs.takeWhile isPart)).map fun n => (.integer n, cs.dropWhile isPart)

/-- What follows the end of a line, behind blanks and perhaps a comment. -/
def endOfLine? (cs : List Char) : Option (List Char) :=
  let cs := dropBlanks cs
  let cs := if cs.head? = some '#' then cs.dropWhile Style.isPlain else cs
  match cs with
  | [] => some []
  | '\n' :: rest => some rest
  | _ => none

/-- An assignment, with what follows its line. -/
def scanAssignment? (cs : List Char) : Option ((String × Scalar) × List Char) := do
  let (name, cs) ← scanName? cs
  match dropBlanks cs with
  | '=' :: cs =>
    let (value, cs) ← scanScalar? (dropBlanks cs)
    let cs ← endOfLine? cs
    return ((String.ofList name, value), cs)
  | _ => none

/-- The assignments of a document whose lines end in line feeds. -/
def assignments? (cs : List Char) : Option (List (String × Scalar)) :=
  let line := dropBlanks cs
  if cs = [] then some []
  else
    match endOfLine? line with
    | some rest => if rest.length < cs.length then assignments? rest else none
    | none =>
      match scanAssignment? line with
      | some (a, rest) =>
        if rest.length < cs.length then (assignments? rest).map (a :: ·) else none
      | none => none
termination_by cs.length

/-- Drops every carriage return in front of a line feed. -/
def unifyLines : List Char → List Char
  | '\r' :: '\n' :: rest => '\n' :: unifyLines rest
  | c :: rest => c :: unifyLines rest
  | [] => []

/-- The settings of a document, which may start with a byte order mark. -/
def settings? (text : String) : Option (List (String × Scalar)) := do
  let cs := match text.toList with
    | '\ufeff' :: rest => rest
    | cs => cs
  let found ← assignments? (unifyLines cs)
  if (found.map Prod.fst).Nodup then some found else none

end Rollup.Toml
