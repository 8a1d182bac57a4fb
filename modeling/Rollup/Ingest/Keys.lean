import Rollup.Ingest.Queue
import Rollup.Store.Access

/-!
# Revising buckets

A phase of a commit groups the entries of a queue by key and revises one bucket for every group:
`plan?` reads the stored bucket and computes the new one, and `write` stores it.  Groups are
independent, so a group that fails does not stop the others; `Progress` collects what was revised
and the first error.

Groups may be divided among workers by the hash of their keys.  The workers' results are joined in
the order of their slots, and a worker that crashes counts as an error, its revisions forgotten.
-/

namespace Rollup.Ingest

/-- A stage and the scope that holds its buckets. -/
structure Site where
  stage : Stage
  scope : ScopeId
deriving Repr

/-- The documents queued under one key. -/
abbrev Group := Key × List Document

/-- A bucket before and after a phase. -/
structure Revision where
  key : Key
  old : Option Document
  new : Document
  outcome : KeyOutcome
deriving Repr

/-- What has come of a list of groups. -/
structure Progress where
  revisions : List Revision := []
  failed : Option Error := none
deriving Repr

variable {σ : Type}

/-- The documents of every key, in queue order, the keys ascending. -/
def groupByKey (entries : List (Key × Document)) : List Group :=
  (entries.foldr (fun e m => m.insert e.1 (e.2 :: (m.get? e.1).getD []))
    (SortedMap.empty : SortedMap Key (List Document))).toList

/-! ## One group -/

/-- Reads the bucket of a group and computes what it becomes.  A retraction from a bucket that is
not stored is skipped. -/
def plan? (site : Site) : Phase → Group → Action Error σ (Option Revision)
  | .retract, (key, docs) => do
    match ← Access.get? site.scope key with
    | none =>
      Action.record (.key .skipped)
      return none
    | some stored => return some ⟨key, some stored, site.stage.unreduce stored docs, .unreduced⟩
  | .add, (key, docs) => do
    match site.stage.reduce? docs with
    | none => return none
    | some candidate =>
      match ← Access.get? site.scope key with
      | none => return some ⟨key, none, candidate, .inserted⟩
      | some stored =>
        return (site.stage.rereduce? [stored, candidate]).map fun merged =>
          ⟨key, some stored, merged, .merged⟩

/-- Stores a revised bucket. -/
def write (site : Site) (r : Revision) : Action Error σ Unit := do
  Access.set site.scope r.key (some r.new)
  Action.record (.key r.outcome)

/-- Revises the bucket of a group. -/
def processGroup (site : Site) (phase : Phase) (group : Group) :
    Action Error σ (Option Revision) := do
  match ← plan? site phase group with
  | none => return none
  | some r =>
    write site r
    return some r

/-! ## Many groups -/

namespace Progress

/-- Adds what came of one group. -/
def add (p : Progress) : Except Error (Option Revision) → Progress
  | .ok r => { p with revisions := p.revisions ++ r.toList }
  | .error e => { p with failed := p.failed.or (some e) }

/-- Adds what came of another worker. -/
def join (p q : Progress) : Progress := ⟨p.revisions ++ q.revisions, p.failed.or q.failed⟩

end Progress

/-- Revises the buckets of groups one after the other. -/
def processAll (site : Site) (phase : Phase) : List Group → Progress → Action Error σ Progress
  | [], p => pure p
  | group :: rest, p => do
    match ← Action.attempt (processGroup site phase group) with
    | .ok r => processAll site phase rest (p.add (.ok r))
    | .error (.error e) => processAll site phase rest (p.add (.error e))
    | .error .crash => Action.fail .crash

/-- The slot of the worker that a key goes to. -/
def slot (workers : Nat) (key : Key) : Nat := key.stableHash.toNat % workers

/-- The groups of every worker that has any, in the order of the slots. -/
def partitions (workers : Nat) (groups : List Group) : List (List Group) :=
  (groups.foldr (fun g m =>
      m.insert (slot workers g.1) (g :: (m.get? (slot workers g.1)).getD []))
    (SortedMap.empty : SortedMap Nat (List Group))).toList.map Prod.snd

/-- What a worker that ended so contributes. -/
def workerProgress : Except (Failure Error) Progress → Progress
  | .ok p => p
  | .error (.error e) => ⟨[], some e⟩
  | .error .crash => ⟨[], some .workerCrashed⟩

/-- Lets one worker after the other process its groups. -/
def processWorkers (site : Site) (phase : Phase) :
    List (List Group) → Progress → Action Error σ Progress
  | [], p => pure p
  | groups :: rest, p => do
    -- Every worker starts with no failure of its own, whatever the others did.
    let ended ← Action.attempt (δ := Error) (processAll site phase groups {})
    processWorkers site phase rest (p.join (workerProgress ended))

/-- Whether groups are divided among workers.  Otherwise the caller processes them, and a crash is
its own. -/
def isDivided (workers : Nat) (groups : List Group) : Bool := 1 < workers && 1 < groups.length

/-- Revises the buckets of all groups. -/
def process (workers : Nat) (site : Site) (phase : Phase) (groups : List Group) :
    Action Error σ Progress :=
  if isDivided workers groups then processWorkers site phase (partitions workers groups) {}
  else processAll site phase groups {}

end Rollup.Ingest
