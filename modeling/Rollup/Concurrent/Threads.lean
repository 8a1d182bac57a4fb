import Rollup.Concurrent.Cycle
import Rollup.Gate.Basic
import Rollup.Ingest.Ingestor

/-!
# Threads on one ingestor

Any number of threads may ingest, retract and commit on one ingestor.  A `Thread` is a call in
progress, and `Floor.step?` is one step of one thread, so a run is a list of choices of who goes
next.

* Pushing a document is one step, and deciding about a background commit another.
* A commit comes to the gate.  As leader it goes through a cycle and lands it; otherwise it waits,
  takes over the outcome when it wakes up, and comes again if the queues have filled meanwhile.
* A background commit is a thread of its own, which clears the mark that it is pending as its last
  step.
-/

namespace Rollup.Concurrent

/-- What a thread does next. -/
inductive Thread
  /-- Maps a document and queues its entry. -/
  | pushing (phase : Phase) (doc : Document)
  /-- Starts a background commit if so many queued entries call for one. -/
  | scheduling (queued : Nat)
  /-- Comes to the gate. -/
  | arriving (background : Bool)
  /-- Waits for the cycle that was running in this generation. -/
  | waiting (background : Bool) (generation : UInt64)
  /-- Looks whether anything is queued after a cycle that succeeded. -/
  | rechecking (background : Bool)
  /-- Leads a cycle. -/
  | leading (background : Bool) (cycle : Cycle)
  /-- Clears the mark of the background commit. -/
  | clearing
  /-- Has returned. -/
  | ended (result : Except (Failure Error) Unit)
deriving Repr

namespace Thread

/-- A call that queues a document for addition. -/
def ingest (doc : Document) : Thread := .pushing .add doc

/-- A call that queues a document for retraction. -/
def uningest (doc : Document) : Thread := .pushing .retract doc

/-- A call that commits. -/
def commit : Thread := .arriving false

/-- The end of a commit.  A background commit that crashes leaves its mark. -/
def finish (background : Bool) (result : Except (Failure Error) Unit) : Thread :=
  match background, result with
  -- The mark is cleared by a step of its own, between which and this one others may look at it.
  | true, .ok () | true, .error (.error _) => .clearing
  | _, _ => .ended result

/-- The result of a thread that has returned. -/
def result? : Thread → Option (Except (Failure Error) Unit)
  | .ended result => some result
  | _ => none

end Thread

/-- An ingestor with the threads that use it. -/
structure Floor where
  ingestor : Ingestor
  world : World
  gate : Gate := {}
  threads : List Thread := []

namespace Floor

/-- Adds a thread. -/
def spawn (f : Floor) (t : Thread) : Floor := { f with threads := f.threads ++ [t] }

/-- Moves a thread on. -/
def put (f : Floor) (i : Nat) (t : Thread) : Floor := { f with threads := f.threads.set i t }

/-- Reports an event. -/
def record (f : Floor) (e : Event) : Floor := { f with world := f.world.record e }

/-- Maps a document and queues its entry. -/
def push (f : Floor) (phase : Phase) (doc : Document) : Thread × Floor :=
  let (queued, ingestor, world) :=
    (Ingestor.enqueue phase doc : Action Error Ingestor (Option Nat)).run f.ingestor f.world
  let next : Thread :=
    match queued with
    | .ok (some n) => .scheduling n
    | _ => .ended (.ok ())
  (next, { f with ingestor, world })

/-- Marks that a background commit is pending, or that none is. -/
def mark (f : Floor) (pending : Bool) : Floor :=
  { f with ingestor := { f.ingestor with backgroundPending := pending } }

/-- Starts a background commit if so many queued entries call for one. -/
def schedule (f : Floor) (queued : Nat) : Floor :=
  if f.ingestor.isDue queued then (f.mark true).spawn (.arriving true) else f

/-- Comes to the gate. -/
def arrive (f : Floor) (background : Bool) : Thread × Floor :=
  match f.gate.enter with
  | (.leads, gate) => (.leading background .start, { f with gate }.record .commitStart)
  | (.joins generation, gate) => (.waiting background generation, { f with gate })

/-- Takes over the outcome of a cycle. -/
def takeOver (background : Bool) : Outcome → Thread
  | .ok () => .rechecking background
  | .error e => .finish background (.error (.error e))

/-- Reports how a cycle has ended and opens the gate. -/
def land (f : Floor) (background : Bool) (ended : Except (Failure Error) Nat) : Thread × Floor :=
  let (result, _, world) := (Ingest.finishCycle ended : Action Error Unit Unit).run () f.world
  let gate :=
    match result with
    | .ok () => f.gate.land (.ok ())
    | .error (.error e) => f.gate.land (.error e)
    | .error .crash => f.gate.abort
  (.finish background result, { f with world, gate })

/-- One step of a cycle. -/
def cycleStep (f : Floor) (worker : Nat) (cycle : Cycle) : Cycle × Floor :=
  match f.ingestor.sites with
  | [] => (.ending (.ok 0), f)
  | site :: behindSites =>
    let step := cycle.step f.ingestor.config.commitWorkers site behindSites worker
    let (next, queues, world) := step.run f.ingestor.queues f.world
    let cycle :=
      match next with
      | .ok cycle => cycle
      | .error failure => .ending (.error failure)
    (cycle, { f with ingestor := { f.ingestor with queues }, world })

/-- One step of a thread, if it can go on.  If the thread leads a cycle whose crew is at work, it is
a call of the worker with the given number. -/
def step? (f : Floor) (i : Nat) (worker : Nat) : Option Floor :=
  let moved (r : Thread × Floor) : Option Floor := some (r.2.put i r.1)
  match f.threads[i]? with
  | none | some (.ended _) => none
  | some (.pushing phase doc) => moved (f.push phase doc)
  | some (.scheduling queued) => some ((f.put i (.ended (.ok ()))).schedule queued)
  | some (.arriving background) => moved (f.arrive background)
  | some (.waiting background generation) =>
    (f.gate.outcome? generation).map fun outcome => f.put i (takeOver background outcome)
  | some (.rechecking background) =>
    moved (if f.ingestor.queued = 0 then .finish background (.ok ()) else .arriving background, f)
  | some (.leading background (.ending ended)) => moved (f.land background ended)
  | some (.leading background cycle) =>
    let (cycle, f) := f.cycleStep worker cycle
    moved (.leading background cycle, f)
  | some .clearing => some ((f.mark false).put i (.ended (.ok ())))

/-- The steps of a run: who goes next, and with which worker. -/
abbrev Schedule := List (Nat × Nat)

/-- A run, if all its steps can be taken. -/
def run? (f : Floor) (schedule : Schedule) : Option Floor :=
  schedule.foldlM (fun f s => f.step? s.1 s.2) f

/-- The cycle that a thread leads. -/
def cycle? (f : Floor) (i : Nat) : Option Cycle :=
  match f.threads[i]? with
  | some (.leading _ cycle) => some cycle
  | _ => none

/-- The worker whose turn it is in the cycle that a thread leads, if workers go in order. -/
def worker (f : Floor) (i : Nat) : Nat := ((f.cycle? i).map Cycle.next).getD 0

/-- Whether a thread is about to write a bucket of the root. -/
def isWriting (f : Floor) (i : Nat) : Bool :=
  ((f.cycle? i).map fun cycle => cycle.isWriting cycle.next).getD false

end Floor

end Rollup.Concurrent
