/-!
# Blanks and lines

`isBlank` is the Unicode property White_Space; `trim` takes blanks off both ends of a text.  Both
are read by date texts and by event files, whose rows `lines` separates.
-/

namespace Rollup.Text

/-- Whether a character has the Unicode property White_Space. -/
def isBlank (c : Char) : Bool :=
  let n := c.toNat
  (9 ≤ n && n ≤ 13) || n == 0x20 || n == 0x85 || n == 0xA0 || n == 0x1680 ||
    (0x2000 ≤ n && n ≤ 0x200A) || n == 0x2028 || n == 0x2029 || n == 0x202F || n == 0x205F ||
    n == 0x3000

/-- Takes the blanks off both ends. -/
def trim (cs : List Char) : List Char :=
  ((cs.dropWhile isBlank).reverse.dropWhile isBlank).reverse

/-- Takes a carriage return off the end of a line. -/
def dropReturn (line : List Char) : List Char :=
  if line.getLast? = some '\r' then line.dropLast else line

/-- The lines of a text.  A line ends in a line feed, or in a carriage return and a line feed; what
follows the last line feed is a line too, unless it is empty. -/
def lines (cs : List Char) : List (List Char) :=
  go cs []
where
  /-- Collects the line being read in reverse. -/
  go : List Char → List Char → List (List Char)
    | [], [] => []
    | [], line => [line.reverse]
    | '\n' :: rest, line => dropReturn line.reverse :: go rest []
    | c :: rest, line => go rest (c :: line)

end Rollup.Text
