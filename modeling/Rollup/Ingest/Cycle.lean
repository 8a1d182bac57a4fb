import Rollup.Ingest.Keys

/-!
# Commit cycles

A cycle retracts what the stage at hand has queued for retraction, then adds what it has queued for
addition.  Each queue is drained when its phase starts, so a phase that fails leaves the other queue
for the next cycle.

Every revised bucket is forwarded to the stage behind: its old document is queued there for
retraction and its new one for addition.  The stage behind is committed at the end of the cycle, and
also after a failed phase, because what was revised must reach it.
-/

namespace Rollup.Ingest

/-- Queues a revised bucket at the stage behind. -/
def forwardRevision {ε : Type} (next : Stage) (r : Revision) : Action ε Queues Unit := do
  match r.old with
  | some old => enqueue next .retract (Stage.tagged r.key old)
  | none => pure ()
  enqueue next .add (Stage.tagged r.key r.new)

/-- Queues revised buckets one after the other. -/
def forwardAll {ε : Type} (next : Stage) : List Revision → Action ε Queues Unit
  | [] => pure ()
  | r :: rest => do
    forwardRevision next r
    forwardAll next rest

/-- The number of documents that revised buckets queue at the stage behind. -/
def weight : List Revision → Nat
  | [] => 0
  | r :: rest => (if r.old.isSome then 2 else 1) + weight rest

/-- Forwards revised buckets to the stage behind, if there is one. -/
def forward {ε : Type} (behindSites : List Site) (revisions : List Revision) :
    Action ε (List Queues) Unit :=
  match behindSites with
  | [] => pure ()
  | next :: _ => do
    behind (here (forwardAll next.stage revisions))
    Action.record (.chainForward (weight revisions))

/-- Runs a computation and forgets its error.  A crash is not forgotten. -/
def settle {ε δ σ : Type} (act : Action ε σ Unit) : Action δ σ Unit := do
  match ← Action.attempt act with
  | .error .crash => Action.fail .crash
  | _ => pure ()

/-- Forwards what a phase has revised and gives the number of its buckets.  After a failure the
stages behind are committed all the same, and their own failure does not count. -/
def finishPhase (behindSites : List Site) (commitBehind : Action Error (List Queues) Unit)
    (p : Progress) : Action Error (List Queues) Nat := do
  forward behindSites p.revisions
  match p.failed with
  | none => return p.revisions.length
  | some e =>
    -- What was forwarded must not wait for a cycle that succeeds.
    settle (δ := Error) commitBehind
    Action.fail (.error e)

/-- Drains a queue and revises the buckets of its keys. -/
def phase (workers : Nat) (site : Site) (behindSites : List Site)
    (commitBehind : Action Error (List Queues) Unit) (which : Phase) :
    Action Error (List Queues) Nat := do
  let entries ← here (drain which)
  if entries.isEmpty then return 0
  else
    let p ← process workers site which (groupByKey entries)
    finishPhase behindSites commitBehind p

/-- Both phases, then the store and the stages behind; gives the number of revised buckets. -/
def phases (workers : Nat) (site : Site) (behindSites : List Site)
    (commitBehind : Action Error (List Queues) Unit) : Action Error (List Queues) Nat := do
  let retracted ← phase workers site behindSites commitBehind .retract
  let added ← phase workers site behindSites commitBehind .add
  Access.commit site.scope
  commitBehind
  return retracted + added

/-- Reports the end of a cycle. -/
def finishCycle {σ : Type} : Except (Failure Error) Nat → Action Error σ Unit
  | .ok touched => Action.record (.commitFinish touched)
  | .error (.error e) => do
    Action.record .commitFailed
    Action.fail (.error e)
  | .error .crash => Action.fail .crash

/-- Commits a chain of stages, the one at hand first. -/
def commit (workers : Nat) : List Site → Action Error (List Queues) Unit
  | [] => pure ()
  | site :: behindSites => do
    Action.record .commitStart
    let commitBehind := behind (commit workers behindSites)
    let ended ← Action.attempt (phases workers site behindSites commitBehind)
    finishCycle ended

end Rollup.Ingest
