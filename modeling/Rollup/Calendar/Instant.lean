import Rollup.Calendar.Date

/-!
# Instants

An `Instant` is a point of time without leap seconds: whole seconds since 1970-01-01T00:00:00 UTC,
rounded down, and the nanoseconds beyond them.
-/

namespace Rollup.Calendar

/-- The number of seconds in a day. -/
def secondsPerDay : Nat := 86400

/-- A time of day. -/
structure Clock where
  hour : Nat
  minute : Nat
  second : Nat
  nanos : Nat
  hour_lt : hour < 24
  minute_lt : minute < 60
  second_lt : second < 60
  nanos_lt : nanos < 1000000000
deriving Repr, DecidableEq

namespace Clock

/-- Midnight. -/
def midnight : Clock := ⟨0, 0, 0, 0, by decide, by decide, by decide, by decide⟩

/-- The time of day with these parts, if there is one. -/
def ofParts? (hour minute second nanos : Nat) : Option Clock :=
  if h : hour < 24 ∧ minute < 60 ∧ second < 60 ∧ nanos < 1000000000 then
    some ⟨hour, minute, second, nanos, h.1, h.2.1, h.2.2.1, h.2.2.2⟩
  else none

/-- The whole seconds since midnight. -/
def seconds (c : Clock) : Nat := 3600 * c.hour + 60 * c.minute + c.second

end Clock

/-- A point of time. -/
structure Instant where
  seconds : Int
  nanos : Nat
  nanos_lt : nanos < 1000000000
deriving Repr, DecidableEq

namespace Instant

/-- The instant at which clocks that are `offset` seconds ahead of UTC show a date and a time. -/
def ofLocal (date : Date) (clock : Clock) (offset : Int) : Instant :=
  ⟨date.dayNumber * secondsPerDay + clock.seconds - offset, clock.nanos, clock.nanos_lt⟩

/-- The whole days since 1970-01-01T00:00:00 UTC, cut off toward zero. -/
def days (i : Instant) : Int := i.seconds.tdiv secondsPerDay

end Instant

end Rollup.Calendar
