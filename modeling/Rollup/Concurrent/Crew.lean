import Rollup.Ingest.Keys

/-!
# Workers at work

The workers of a phase access the store one call at a time, and their calls may interleave in any
order.  For each of its groups a worker reads the bucket, then writes it.  `Crew.step` is one call
of one worker, and `Crew.result?` joins what the workers have done when all of them have ended.
-/

namespace Rollup.Concurrent

open Ingest

variable {σ : Type}

/-- A worker between two calls. -/
structure Worker where
  /-- The groups that it has not begun. -/
  todo : List Group
  /-- The bucket that it is about to write. -/
  ready : Option Revision := none
  progress : Progress := {}
  crashed : Bool := false
deriving Repr

namespace Worker

/-- Whether a worker has ended. -/
def isDone (w : Worker) : Bool := w.crashed || (w.ready.isNone && w.todo.isEmpty)

/-- How a worker has ended. -/
def result (w : Worker) : Except (Failure Error) Progress :=
  if w.crashed then .error .crash else .ok w.progress

/-- Adds what came of a group. -/
def receive (w : Worker) : Except (Failure Error) (Option Revision) → Worker
  | .ok r => { w with progress := w.progress.add (.ok r) }
  | .error (.error e) => { w with progress := w.progress.add (.error e) }
  | .error .crash => { w with crashed := true }

/-- One call to the store: writes the bucket that is ready, or else reads the next. -/
def step (site : Site) (phase : Phase) (w : Worker) : Action Error σ Worker :=
  if w.crashed then pure w
  else
    match w.ready, w.todo with
    | some r, _ => do
      let ended ← Action.attempt (write site r)
      return { w with ready := none }.receive (ended.map fun _ => some r)
    | none, [] => pure w
    | none, group :: rest => do
      let ended ← Action.attempt (plan? site phase group)
      let w := { w with todo := rest }
      match ended with
      | .ok (some r) => return { w with ready := some r }
      | ended => return w.receive ended

end Worker

/-- The workers of a phase. -/
structure Crew where
  /-- Whether the workers are threads of their own, whose crashes are errors of the cycle. -/
  divided : Bool
  workers : List Worker
deriving Repr

namespace Crew

/-- The crew for the groups of a phase: one worker for every slot that has any, or the caller
itself. -/
def ofGroups (workers : Nat) (groups : List Group) : Crew :=
  if isDivided workers groups then ⟨true, (partitions workers groups).map fun g => { todo := g }⟩
  else ⟨false, [{ todo := groups }]⟩

/-- Whether all workers have ended. -/
def isDone (c : Crew) : Bool := c.workers.all Worker.isDone

/-- The first worker that has not ended. -/
def next (c : Crew) : Nat := c.workers.findIdx fun w => !w.isDone

/-- One call of one worker. -/
def step (site : Site) (phase : Phase) (c : Crew) (i : Nat) : Action Error σ Crew :=
  match c.workers[i]? with
  | none => pure c
  | some w => do
    let w ← w.step site phase
    return { c with workers := c.workers.set i w }

/-- How workers that are threads of their own have ended together. -/
def joinAll (workers : List Worker) : Progress :=
  workers.foldl (fun p w => p.join (workerProgress w.result)) {}

/-- How the crew has ended, if it has. -/
def result? (c : Crew) : Option (Except (Failure Error) Progress) :=
  if !c.isDone then none
  else if c.divided then some (.ok (joinAll c.workers))
  else c.workers.head?.map Worker.result

end Crew

end Rollup.Concurrent
