import Rollup.SortedMap
import Rollup.Binary64
import Rollup.Decimal.Shortest
import Rollup.Decimal.Layout
import Rollup.Decimal.Literal
import Rollup.Text.Blank
import Rollup.Text.Quoted
import Rollup.Json.Basic
import Rollup.Json.Token
import Rollup.Json.Reader
import Rollup.Value
import Rollup.Document
import Rollup.Error
import Rollup.Key.Part
import Rollup.Key.Basic
import Rollup.Hash.Xxh3
import Rollup.Calendar.Iso8601
import Rollup.Pipeline
import Rollup.Query.Json
import Rollup.Row
import Rollup.Config
import Rollup.Metrics
import Rollup.Store.Access
import Rollup.Gate.Basic
import Rollup.Ingest.Ingestor
import Rollup.Gate.Callers
import Rollup.Concurrent.Crew
import Rollup.Concurrent.Cycle
import Rollup.Concurrent.Threads
import Rollup.Aggregation
import Rollup.CommandLine
import Rollup.Main
import Rollup.Proofs.Binary64.Whole
import Rollup.Proofs.Verb.Columns
import Rollup.Proofs.Stage.Aggregate
import Rollup.Proofs.Stage.Routing
import Rollup.Proofs.Pipeline
import Rollup.Proofs.Verb.Parts
import Rollup.Proofs.Verb.Indexing
import Rollup.Proofs.Ingest.Groups
import Rollup.Proofs.Ingest.Revisions
import Rollup.Proofs.Ingest.Amounts
import Rollup.Proofs.Ingest.Phases
import Rollup.Proofs.Ingest.Chain
import Rollup.Proofs.Ingest.Stock
import Rollup.Proofs.Ingest.Processing
import Rollup.Proofs.Ingest.Cycle
import Rollup.Proofs.Ingest.Links
import Rollup.Proofs.Ingest.Root
import Rollup.Proofs.Ingest.Sessions
import Rollup.Proofs.Ingest.Opening
import Rollup.Proofs.Ingest.Folding
import Rollup.Proofs.Ingest.Histories
import Rollup.Proofs.Ingest.Pace
import Rollup.Proofs.Ingest.Recomputation
import Rollup.Proofs.Ingest.Census
import Rollup.Proofs.Ingest.Uniques
import Rollup.Proofs.Ingest.Indexing
import Rollup.Proofs.Ingest.Conservation
import Rollup.Proofs.Ingest.Containment
import Rollup.Proofs.Ingest.Balance
import Rollup.Proofs.Ingest.Steadiness
import Rollup.Proofs.Ingest.Recovery
import Rollup.Proofs.Gate.Landings
import Rollup.Proofs.Gate.Exclusion
import Rollup.Proofs.Concurrent.Crew
import Rollup.Proofs.Concurrent.Schedules
import Rollup.Proofs.Concurrent.Dealing
import Rollup.Proofs.Concurrent.Crashes
import Rollup.Proofs.Concurrent.Cycle
import Rollup.Proofs.Concurrent.Threads
import Rollup.Proofs.Concurrent.Counts
import Rollup.Proofs.Concurrent.Accounting
import Rollup.Proofs.Concurrent.Coverage
import Rollup.Proofs.Aggregation.Ledger
import Rollup.Proofs.Aggregation.Log
import Rollup.Proofs.Aggregation.Sessions
import Rollup.Proofs.Aggregation.Agreement
import Rollup.Proofs.Store.Tree
import Rollup.Proofs.Ingest.Parallel
import Rollup.Proofs.Concurrent.Retractions
import Rollup.Proofs.Aggregation.Quarters
import Rollup.Proofs.Aggregation.Calls
import Rollup.Proofs.Aggregation.Backlogs
import Rollup.Proofs.Aggregation.Replays
import Rollup.Proofs.Aggregation.Lockstep
import Rollup.Proofs.Aggregation.Engines
import Rollup.Proofs.Aggregation.Resets
import Rollup.Proofs.Ingest.Batches
import Rollup.Proofs.Ingest.Feeding
import Rollup.Proofs.Concurrent.Chains
import Rollup.Proofs.Concurrent.Background
import Rollup.Proofs.Concurrent.Programs
import Rollup.Proofs.CommandLine
import Rollup.Proofs.Store.Handles
import Rollup.Proofs.Store.Territories
import Rollup.Proofs.Aggregation.Homes
import Rollup.Proofs.Aggregation.Isolation
import Rollup.Proofs.Concurrent.Triggers
import Rollup.Proofs.Metrics
import Rollup.Proofs.Ingest.Bookkeeping
import Rollup.Proofs.Concurrent.Balances
import Rollup.Proofs.Action
import Rollup.Proofs.Ingest.Footprints
import Rollup.Proofs.Aggregation.Failures
import Rollup.Proofs.Binary64.Canonical
import Rollup.Proofs.Stage.Totals
import Rollup.Proofs.Stage.Congruence
import Rollup.Proofs.Lineage
import Rollup.Proofs.Retraction
import Rollup.Proofs.Regrouping
import Rollup.Proofs.Verb.Regions
import Rollup.Proofs.Boundaries
import Rollup.Proofs.Ingest.Provenance
import Rollup.Proofs.Store.Scans
import Rollup.Proofs.Verb.Placement
import Rollup.Proofs.Aggregation.Lookups
import Rollup.Proofs.Key.Canonical
import Rollup.Proofs.Query.Layout
import Rollup.Proofs.Key.Numbers
import Rollup.Proofs.Store.Appends
import Rollup.Proofs.Calendar.Instants
import Rollup.Proofs.Binary64.Nearest
import Rollup.Proofs.Json.Tokens
import Rollup.Proofs.Decimal.Rereading
import Rollup.Proofs.Json.Rereading
import Rollup.Proofs.Document.Rereading
import Rollup.Proofs.Query.Rereading
import Rollup.Proofs.Draft.Calls
import Rollup.Proofs.Draft.Packed
