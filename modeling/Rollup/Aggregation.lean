import Rollup.Ingest.Ingestor
import Rollup.Query.Basic
import Rollup.Row

/-!
# Aggregations

An `Aggregation` is a query that is kept up to date under a name.  It lives in the scope of that
name below the root of a store: its buckets there, those of chained stages below, and beside them the
log of its events.

Its operations are actions on the aggregation and the world, and report their failures as a caller
sees them.
-/

namespace Rollup

/-- A query that is kept up to date. -/
structure Aggregation where
  name : String
  pipeline : Pipeline
  ingestor : Ingestor

namespace Aggregation

variable {ε σ α : Type}

/-- The name of the scope that holds the log of events. -/
def logName : String := "events"

/-- Reports the errors of a computation as a caller sees them. -/
def reported (act : Action Error σ α) : Action Report σ α := act.mapError Report.ofError

/-- Runs a computation on the ingestor. -/
def onIngestor (act : Action ε Ingestor α) : Action ε Aggregation α :=
  act.zoom Aggregation.ingestor fun i a => { a with ingestor := i }

/-! ## Opening -/

/-- Opens the scopes of a pipeline under a name. -/
def openIngestor (config : Config) (name : String) (pipeline : Pipeline) :
    Action Error σ Ingestor := do
  let scope ← Access.openChild Store.root (.named name)
  Ingestor.openAt scope pipeline config

/-- Refuses a configuration under which chained stages would meet the log. -/
def checkChainStore (config : Config) : Except Report Unit :=
  if config.chainStore = logName then
    .error ⟨.config, .config, "chain_store must not be '" ++ logName ++ "'"⟩
  else .ok ()

/-- Opens the aggregation of a query under a name. -/
def openNamed (config : Config) (name : String) (query : Query) : Action Report σ Aggregation := do
  Action.ofExcept (config.validate.mapError Report.ofConfigError)
  Action.ofExcept (checkChainStore config)
  let pipeline ← Action.ofExcept (query.compile.mapError Report.ofQueryError)
  return { name, pipeline, ingestor := ← reported (openIngestor config name pipeline) }

/-- Erases the aggregation with its log and starts again.  What was queued is forgotten. -/
def reset : Action Report Aggregation Unit := do
  let a ← Action.getLocal
  -- A store may report that there was no scope to delete.
  match ← Action.attempt (Access.deleteChild Store.root (.named a.name)) with
  | .ok () => pure ()
  | .error (.error e) => if e.isKeyNotFound then pure () else Action.fail (.error (.ofError e))
  | .error .crash => Action.fail .crash
  let ingestor ← reported (openIngestor a.ingestor.config a.name a.pipeline)
  Action.modifyLocal fun a => { a with ingestor }

/-! ## Documents -/

/-- The number of entries queued at the root stage. -/
def queued (a : Aggregation) : Nat := a.ingestor.queued

/-- Queues a document for addition. -/
def ingest (doc : Document) : Action ε Aggregation Unit := onIngestor (Ingestor.ingest doc)

/-- Queues a document for retraction. -/
def uningest (doc : Document) : Action ε Aggregation Unit := onIngestor (Ingestor.uningest doc)

/-- Commits all stages. -/
def commit : Action Report Aggregation Unit := reported (onIngestor Ingestor.commit)

/-! ## The log of events -/

/-- Opens the log. -/
def openLog : Action Error Aggregation ScopeId := do
  Access.openChild (← Action.getLocal).ingestor.rootScope (.named logName)

/-- Logs a document and queues it for addition; gives its marker in the log. -/
def record (doc : Document) : Action Report Aggregation Int64 := do
  let marker ← reported do Access.append (← openLog) doc
  ingest doc
  return marker

/-- Queues a logged document for retraction and drops it from the log; tells whether there was one
under the marker. -/
def retract (marker : Int64) : Action Report Aggregation Bool := do
  let log ← reported openLog
  match ← reported (Access.get? log (.numbered marker)) with
  | none => return false
  | some doc =>
    uningest doc
    reported (Access.set log (.numbered marker) none)
    return true

/-- The greatest marker among entries of a log, or the given one if that is greater. -/
def highWater (marker : Int64) (entries : List (Key × Document)) : Int64 :=
  entries.foldl
    (fun high e =>
      match e.1.parts.head?.bind KeyPart.int? with
      | some n => if high < n then n else high
      | none => high)
    marker

/-- Queues for addition what was logged after a marker; gives the marker to go on from. -/
def replaySince (marker : Int64) : Action Report Aggregation Int64 := do
  let entries ← reported do Access.appendedSince (← openLog) marker
  entries.forM fun e => ingest e.2
  return highWater marker entries

/-- All entries of the log. -/
def logged : Action Error Aggregation (List (Key × Document)) := do
  Access.entries (← openLog)

/-! ## Results -/

/-- The rows of bucket entries. -/
def rows (entries : List (Key × Document)) : List Row := entries.map fun e => Row.ofDocument e.2

/-- The rows of the last stage, in key order. -/
def results : Action Report Aggregation (List Row) := do
  let a ← Action.getLocal
  return rows (← reported (Access.entries a.ingestor.finalScope))

/-- The key whose parts are text or numeric values. -/
def lookupKey? (values : List Value) : Option Key := (values.mapM KeyPart.ofValue?).map Key.mk

/-- The rows of the root stage whose index values begin with the given ones. -/
def lookup (values : List Value) : Action Report Aggregation (List Row) := do
  let a ← Action.getLocal
  if !a.pipeline.isIndexed then
    Action.fail (.error
      ⟨.queryUnsupported, .query, "aggregation '" ++ a.name ++ "' has no IndexedBy"⟩)
  else
    match lookupKey? values with
    | none =>
      Action.fail (.error
        ⟨.queryInvalid, .query, "index lookups take text or numeric values only"⟩)
    | some front =>
      return rows (← reported (Access.entriesUnder a.ingestor.rootScope front))

end Aggregation

end Rollup
