import Rollup.Action
import Rollup.Stage

/-!
# Queues

Every stage has two queues of mapped entries: those to add to its buckets and those to retract.
Ingestion only maps a document and appends the entry to a queue; commits drain the queues.

The queues of a chain of stages are a list, the stage at hand first.  `here` and `behind` run a
computation on the first queues and on the others.
-/

namespace Rollup

/-- What a commit does with the entries of a queue. -/
inductive Phase
  | retract
  | add
deriving Repr, DecidableEq

/-- Entries that wait for a commit, the oldest first. -/
structure Queues where
  additions : List (Key × Document) := []
  retractions : List (Key × Document) := []
deriving Repr

namespace Queues

/-- The number of entries. -/
def size (q : Queues) : Nat := q.additions.length + q.retractions.length

/-- The entries of one queue. -/
def entries (q : Queues) : Phase → List (Key × Document)
  | .retract => q.retractions
  | .add => q.additions

/-- Appends an entry to a queue. -/
def push (q : Queues) (entry : Key × Document) : Phase → Queues
  | .retract => { q with retractions := q.retractions ++ [entry] }
  | .add => { q with additions := q.additions ++ [entry] }

/-- Empties a queue. -/
def drop (q : Queues) : Phase → Queues
  | .retract => { q with retractions := [] }
  | .add => { q with additions := [] }

end Queues

namespace Ingest

variable {ε α : Type}

/-- Runs a computation on the queues of the stage at hand. -/
def here (act : Action ε Queues α) : Action ε (List Queues) α :=
  act.zoom (fun qs => qs.headD {}) fun q qs => q :: qs.tail

/-- Runs a computation on the queues of the stages behind the one at hand. -/
def behind (act : Action ε (List Queues) α) : Action ε (List Queues) α :=
  act.zoom List.tail fun rest qs => qs.headD {} :: rest

/-- Maps a document and queues its entry. -/
def enqueue (stage : Stage) (phase : Phase) (doc : Document) : Action ε Queues Unit := do
  match stage.map? doc with
  | none => Action.record .rejected
  | some entry =>
    Action.modifyLocal fun q => q.push entry phase
    Action.record (.queued (phase = .retract))

/-- Takes all entries out of a queue. -/
def drain (phase : Phase) : Action ε Queues (List (Key × Document)) := do
  let q ← Action.getLocal
  Action.modifyLocal fun q => q.drop phase
  return q.entries phase

end Ingest

end Rollup
