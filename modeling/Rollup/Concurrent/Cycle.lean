import Rollup.Concurrent.Crew
import Rollup.Ingest.Cycle

/-!
# A cycle in steps

The leader of a commit cycle goes through it in small steps, between which other callers may fill
the queues: it drains a queue, lets the crew make its calls, forwards what was revised, and at the
end flushes the store and commits the stages behind.  Only leaders reach the stages behind, so their
part is one step.
-/

namespace Rollup.Concurrent

open Ingest

/-- A leader between two steps. -/
inductive Cycle
  /-- About to drain the queue of a phase. -/
  | draining (phase : Phase) (touched : Nat)
  /-- The crew of a phase is at work. -/
  | revising (phase : Phase) (touched : Nat) (crew : Crew)
  /-- Both phases are over. -/
  | flushing (touched : Nat)
  /-- About to report how the cycle has ended. -/
  | ending (ended : Except (Failure Error) Nat)
deriving Repr

namespace Cycle

/-- The start of a cycle. -/
def start : Cycle := .draining .retract 0

/-- What follows a phase. -/
def after : Phase → Nat → Cycle
  | .retract, touched => .draining .add touched
  | .add, touched => .flushing touched

/-- What follows a computation that may have ended the cycle. -/
def resume {α : Type} (next : α → Cycle) : Except (Failure Error) α → Cycle
  | .ok x => next x
  | .error f => .ending (.error f)

/-- One step of a cycle over a site and those behind it; `worker` makes the call if a crew is at
work. -/
def step (workers : Nat) (site : Site) (behindSites : List Site) (worker : Nat) :
    Cycle → Action Error (List Queues) Cycle
  | .draining phase touched => do
    let entries ← here (drain phase)
    if entries.isEmpty then return after phase touched
    else return .revising phase touched (.ofGroups workers (groupByKey entries))
  | .revising phase touched crew =>
    -- While the crew is at work a step is one of its calls, and then what ends the phase.
    match crew.result? with
    | none => do return .revising phase touched (← crew.step site phase worker)
    | some (.error f) => return .ending (.error f)
    | some (.ok p) => do
      let ended ← Action.attempt (finishPhase behindSites (behind (commit workers behindSites)) p)
      return resume (fun n => after phase (touched + n)) ended
  | .flushing touched => do
    let ended ← Action.attempt (do
      Access.commit site.scope
      behind (commit workers behindSites))
    return .ending (ended.map fun _ => touched)
  | .ending ended => return .ending ended

/-- The crew that is at work. -/
def crew? : Cycle → Option Crew
  | .revising _ _ crew => some crew
  | _ => none

/-- The first worker that has a call to make. -/
def next (cycle : Cycle) : Nat := (cycle.crew?.map Crew.next).getD 0

/-- Whether the next call of a worker is to write a bucket. -/
def isWriting (cycle : Cycle) (worker : Nat) : Bool :=
  ((cycle.crew?.bind fun crew => crew.workers[worker]?).bind Worker.ready).isSome

end Cycle

end Rollup.Concurrent
