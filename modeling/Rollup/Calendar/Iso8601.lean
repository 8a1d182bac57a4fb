import Rollup.Calendar.Instant
import Rollup.Decimal.Literal
import Rollup.Text.Blank

/-!
# Reading instants

An instant is written in one of three forms: with an offset (RFC 3339), as a date and a time taken
as UTC, or as a date, which is its midnight in UTC.  `readInstant?` takes blanks off both ends and
tries the forms in that order.

Only a time with an offset may show second 60.  It is read as the last nanosecond of second 59, and
only where a leap second can be, at the end of a month in UTC.
-/

namespace Rollup.Calendar.Iso8601

/-- What a reader makes of the front of a text, with the rest of the text. -/
abbrev Reader (α : Type) := List Char → Option (α × List Char)

/-- Exactly `count` decimal digits. -/
def digits (count : Nat) : Reader Nat := fun cs =>
  let front := cs.take count
  if front.length = count ∧ front.all Char.isDigit then
    some (Decimal.natOfDigits front, cs.drop count)
  else none

/-- One given character. -/
def char (c : Char) : Reader Unit
  | d :: rest => if d = c then some ((), rest) else none
  | [] => none

/-- The nanoseconds that the digits behind a decimal point stand for; digits beyond the ninth are
dropped. -/
def nanosOfDigits (fraction : List Char) : Nat :=
  let front := fraction.take 9
  Decimal.natOfDigits front * Nat.pow 10 (9 - front.length)

/-- A point and digits, of which there must be one and may be as many as `most` says. -/
def fraction (most : Option Nat) : Reader Nat := fun cs => do
  let (_, cs) ← char '.' cs
  let run := cs.takeWhile Char.isDigit
  let front := match most with
    | some n => run.take n
    | none => run
  if front = [] then none else some (nanosOfDigits front, cs.drop front.length)

/-- A fraction of a second; nothing where the text has no point. -/
def requiredFraction : Reader Nat
  | '.' :: rest => fraction none ('.' :: rest)
  | cs => some (0, cs)

/-- A fraction of a second of at most 32 digits; nothing where there is none. -/
def optionalFraction : Reader Nat := fun cs => (fraction (some 32) cs).getD (0, cs)

/-- A date of four digits for the year and two each for month and day. -/
def date (negative : Bool) : Reader Date := fun cs => do
  let (year, cs) ← digits 4 cs
  let (_, cs) ← char '-' cs
  let (month, cs) ← digits 2 cs
  let (_, cs) ← char '-' cs
  let (day, cs) ← digits 2 cs
  return (← Date.ofParts? (Binary64.signed negative year) month day, cs)

/-- A date whose year may have a sign. -/
def signedDate : Reader Date
  | '-' :: rest => date true rest
  | '+' :: rest => date false rest
  | cs => date false cs

/-- Hour, minute and second. -/
def time : Reader (Nat × Nat × Nat) := fun cs => do
  let (hour, cs) ← digits 2 cs
  let (_, cs) ← char ':' cs
  let (minute, cs) ← digits 2 cs
  let (_, cs) ← char ':' cs
  let (second, cs) ← digits 2 cs
  return ((hour, minute, second), cs)

/-- Hours and minutes of an offset, in seconds. -/
def offsetMagnitude : Reader Nat := fun cs => do
  let (hours, cs) ← digits 2 cs
  let (_, cs) ← char ':' cs
  let (minutes, cs) ← digits 2 cs
  if hours ≤ 23 ∧ minutes ≤ 59 then some (3600 * hours + 60 * minutes, cs) else none

/-- The offset from UTC, in seconds. -/
def offset : Reader Int
  | 'Z' :: rest | 'z' :: rest => some (0, rest)
  | '+' :: rest => (offsetMagnitude rest).map fun r => ((r.1 : Int), r.2)
  | '-' :: rest => (offsetMagnitude rest).map fun r => (-(r.1 : Int), r.2)
  | _ => none

/-- Any single byte. -/
def separator : Reader Unit
  | c :: rest => if c.toNat < 128 then some ((), rest) else none
  | [] => none

/-- Whether a second from `instant` on a month starts in UTC.  The instant is less than a day from
the date that the local clock shows, so only the starts of that month and of the next are near. -/
def endsMonth (date : Date) (instant : Instant) : Bool :=
  let next := instant.seconds + 1
  next == date.monthStart * secondsPerDay || next == date.nextMonthStart * secondsPerDay

/-- A date and a time with an offset. -/
def withOffset? (cs : List Char) : Option Instant := do
  let (date, cs) ← date false cs
  let (_, cs) ← separator cs
  let ((hour, minute, second), cs) ← time cs
  let (nanos, cs) ← requiredFraction cs
  let (offset, cs) ← offset cs
  if cs ≠ [] then none
  else if second = 60 then
    let clock ← Clock.ofParts? hour minute 59 999999999
    let instant := Instant.ofLocal date clock offset
    if endsMonth date instant then some instant else none
  else
    let clock ← Clock.ofParts? hour minute second nanos
    some (Instant.ofLocal date clock offset)

/-- A date and a time, taken as UTC. -/
def withoutOffset? (cs : List Char) : Option Instant := do
  let (date, cs) ← signedDate cs
  let (_, cs) ← char 'T' cs
  let ((hour, minute, second), cs) ← time cs
  let (nanos, cs) ← optionalFraction cs
  let clock ← Clock.ofParts? hour minute second nanos
  if cs = [] then some (Instant.ofLocal date clock 0) else none

/-- A date, taken as its midnight in UTC. -/
def dateOnly? (cs : List Char) : Option Instant := do
  let (date, cs) ← signedDate cs
  if cs = [] then some (Instant.ofLocal date .midnight 0) else none

/-- The instant that a text denotes. -/
def readInstant? (text : String) : Option Instant :=
  let cs := Text.trim text.toList
  withOffset? cs <|> withoutOffset? cs <|> dateOnly? cs

end Rollup.Calendar.Iso8601
