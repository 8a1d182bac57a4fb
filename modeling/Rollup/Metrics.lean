/-!
# Metrics

Ingestion and commits report what they do as events.  `Counters.record` adds an event to the
process-wide counters, which are 64-bit words and stay at their greatest value once they reach it.
-/

namespace Rollup

/-- What a commit did with a key. -/
inductive KeyOutcome
  | inserted
  | merged
  | unreduced
  | skipped
deriving Repr, DecidableEq

/-- Something that ingestion or a commit reports. -/
inductive Event
  | queued (retract : Bool)
  | rejected
  | commitStart
  | commitFinish (keysTouched : Nat)
  | commitFailed
  | key (outcome : KeyOutcome)
  | chainForward (docs : Nat)
deriving Repr, DecidableEq

namespace KeyOutcome

/-- The name of an outcome. -/
def label : KeyOutcome → String
  | inserted => "Inserted"
  | merged => "Merged"
  | unreduced => "Unreduced"
  | skipped => "Skipped"

end KeyOutcome

/-- Counts of events. -/
structure Counters where
  docsQueued : Nat := 0
  docsRejected : Nat := 0
  commitsStarted : Nat := 0
  commitsFinished : Nat := 0
  commitsFailed : Nat := 0
  keysInserted : Nat := 0
  keysMerged : Nat := 0
  keysUnreduced : Nat := 0
  keysSkipped : Nat := 0
  chainForwards : Nat := 0
deriving Repr, DecidableEq

namespace Counters

/-- Adds to a counter, up to the greatest 64-bit word. -/
def add (counter n : Nat) : Nat := min (counter + n) 0xffffffffffffffff

/-- Adds an event. -/
def record (c : Counters) : Event → Counters
  | .queued _ => { c with docsQueued := add c.docsQueued 1 }
  | .rejected => { c with docsRejected := add c.docsRejected 1 }
  | .commitStart => { c with commitsStarted := add c.commitsStarted 1 }
  | .commitFinish _ => { c with commitsFinished := add c.commitsFinished 1 }
  | .commitFailed => { c with commitsFailed := add c.commitsFailed 1 }
  | .key .inserted => { c with keysInserted := add c.keysInserted 1 }
  | .key .merged => { c with keysMerged := add c.keysMerged 1 }
  | .key .unreduced => { c with keysUnreduced := add c.keysUnreduced 1 }
  | .key .skipped => { c with keysSkipped := add c.keysSkipped 1 }
  | .chainForward n => { c with chainForwards := add c.chainForwards n }

/-- The counters after events, from zero. -/
def ofEvents (events : List Event) : Counters := events.foldl record {}

/-- The counters with their names. -/
def toList (c : Counters) : List (String × Nat) :=
  [("docs_queued", c.docsQueued), ("docs_rejected", c.docsRejected),
    ("commits_started", c.commitsStarted), ("commits_finished", c.commitsFinished),
    ("commits_failed", c.commitsFailed), ("keys_inserted", c.keysInserted),
    ("keys_merged", c.keysMerged), ("keys_unreduced", c.keysUnreduced),
    ("keys_skipped", c.keysSkipped), ("chain_forwards", c.chainForwards)]

end Counters

/-- The counters since a point of time, in milliseconds. -/
structure Window where
  start : Nat
  counters : Counters := {}
deriving Repr, DecidableEq

namespace Window

/-- The counters, unless they start before a point of time. -/
def report? (w : Window) (since : Nat) : Option Counters :=
  if since ≤ w.start then some w.counters else none

end Window

end Rollup
