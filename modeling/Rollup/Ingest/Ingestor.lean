import Rollup.Config
import Rollup.Ingest.Cycle
import Rollup.Pipeline

/-!
# Ingestors

An `Ingestor` keeps the buckets of a pipeline up to date: the root stage in a scope of its own, and
every chained stage in a scope below the one before it.

With a commit threshold, the document that makes the queues of the root reach it also starts a
commit in the background, whose failure nobody hears of.  While one is pending no other is started,
and one that crashes stays pending.
-/

namespace Rollup

/-- The sites of a pipeline with their queues, the root first. -/
structure Ingestor where
  sites : List Ingest.Site
  queues : List Queues
  config : Config
  /-- Whether a background commit is under way. -/
  backgroundPending : Bool := false

namespace Ingestor

variable {ε σ α : Type}

/-- Opens the scopes of a chain of stages, each below the one before. -/
def openSites (chainStore : String) : ScopeId → List Stage → Action Error σ (List Ingest.Site)
  | _, [] => pure []
  | scope, [stage] => pure [⟨stage, scope⟩]
  | scope, stage :: rest => do
    let child ← Access.openChild scope (.named chainStore)
    return ⟨stage, scope⟩ :: (← openSites chainStore child rest)

/-- The ingestor of a pipeline whose root stage lives in a scope. -/
def openAt (scope : ScopeId) (pipeline : Pipeline) (config : Config) :
    Action Error σ Ingestor := do
  Action.ofExcept (config.validate.mapError .badConfig)
  let sites ← openSites config.chainStore scope pipeline.stages
  return { sites, queues := sites.map fun _ => {}, config }

/-- The stage of the root. -/
def rootStage? (i : Ingestor) : Option Stage := i.sites.head?.map Ingest.Site.stage

/-- The scope of the root stage. -/
def rootScope (i : Ingestor) : ScopeId := (i.sites.head?.map Ingest.Site.scope).getD Store.root

/-- The scope of the last stage, which holds the results. -/
def finalScope (i : Ingestor) : ScopeId := (i.sites.getLast?.map Ingest.Site.scope).getD Store.root

/-- The number of entries queued at the root. -/
def queued (i : Ingestor) : Nat := (i.queues.headD {}).size

/-- Runs a computation on the queues. -/
def onQueues (act : Action ε (List Queues) α) : Action ε Ingestor α :=
  act.zoom Ingestor.queues fun qs i => { i with queues := qs }

/-- Commits all stages. -/
def commit : Action Error Ingestor Unit := do
  let i ← Action.getLocal
  onQueues (Ingest.commit i.config.commitWorkers i.sites)

/-- Whether so many queued entries start a background commit. -/
def isDue (i : Ingestor) (queued : Nat) : Bool :=
  !i.config.autoCommitDisabled && i.config.commitThreshold ≤ queued && !i.backgroundPending

/-- Runs a background commit to its end. -/
def commitInBackground : Action ε Ingestor Unit := do
  match ← Action.attempt commit with
  -- Nobody is left to clear the mark.
  | .error .crash => Action.modifyLocal fun i => { i with backgroundPending := true }
  | _ => pure ()

/-- Maps a document and queues its entry; tells how many entries are queued then, unless the
document is rejected. -/
def enqueue (phase : Phase) (doc : Document) : Action ε Ingestor (Option Nat) := do
  match (← Action.getLocal).rootStage? with
  | none => return none
  | some stage =>
    onQueues (Ingest.here (Ingest.enqueue stage phase doc))
    let i ← Action.getLocal
    return (stage.map? doc).map fun _ => i.queued

/-- Maps a document and queues its entry, and commits if the threshold is reached. -/
def push (phase : Phase) (doc : Document) : Action ε Ingestor Unit := do
  match ← enqueue phase doc with
  | none => pure ()
  | some queued =>
    if (← Action.getLocal).isDue queued then commitInBackground

/-- Queues a document for addition. -/
def ingest (doc : Document) : Action ε Ingestor Unit := push .add doc

/-- Queues a document for retraction. -/
def uningest (doc : Document) : Action ε Ingestor Unit := push .retract doc

/-- Queues documents for addition, one after the other. -/
def ingestAll (docs : List Document) : Action ε Ingestor Unit := docs.forM ingest

/-- Queues documents for retraction, one after the other. -/
def uningestAll (docs : List Document) : Action ε Ingestor Unit := docs.forM uningest

end Ingestor

end Rollup
