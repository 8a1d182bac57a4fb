import Rollup.Error

/-!
# The commit gate

At most one commit cycle runs at a time.  Whoever comes to a gate with no cycle running leads one;
whoever comes while a cycle runs waits, and when the cycle has landed takes over the latest outcome.
A generation counts the cycles that have landed, so a waiter also wakes when another cycle has
already started.
-/

namespace Rollup

/-- How a commit cycle ended. -/
abbrev Outcome := Except Error Unit

/-- The state of a gate. -/
structure Gate where
  running : Bool := false
  generation : UInt64 := 0
  last : Option Outcome := none

/-- What a caller finds at a gate. -/
inductive Entry
  /-- The caller leads a cycle and must land it. -/
  | leads
  /-- A cycle was running in this generation. -/
  | joins (generation : UInt64)
deriving Repr, DecidableEq

namespace Gate

/-- Comes to the gate. -/
def enter (g : Gate) : Entry × Gate :=
  if g.running then (.joins g.generation, g) else (.leads, { g with running := true })

/-- Ends the running cycle. -/
def land (g : Gate) (outcome : Outcome) : Gate :=
  { running := false, generation := g.generation + 1, last := some outcome }

/-- Ends the running cycle because its leader crashed. -/
def abort (g : Gate) : Gate := g.land (.error .cycleAborted)

/-- Whether a caller that joined in a generation still has to wait. -/
def holds (g : Gate) (generation : UInt64) : Bool :=
  -- A cycle that runs in a later generation is not the one that the caller joined.
  g.running && g.generation == generation

/-- The outcome that a caller takes over once it need not wait. -/
def outcome? (g : Gate) (generation : UInt64) : Option Outcome :=
  if g.holds generation then none else some (g.last.getD (.ok ()))

end Gate

end Rollup
