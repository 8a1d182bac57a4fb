import Rollup.Aggregation
import Rollup.Query.Json
import Rollup.Text.Blank

/-!
# The command line

The command `run` reads a query and events, ingests the events, takes out the events of a second
file, and prints one JSON row per bucket.  `CommandLine.run` is all of it but reading the files and
printing.

Of several problems the one is told that a user would meet first: the configuration, then the query,
the index, and only then the events.
-/

namespace Rollup.CommandLine

/-- A file with its content, or the reason why it cannot be read. -/
structure Source where
  path : String
  content : Except String String
deriving Repr

/-- What the arguments of the command name. -/
structure Request where
  query : Source
  events : Source
  retract? : Option Source := none
  config? : Option Source := none
  index? : Option String := none
deriving Repr

/-- Why the command fails. -/
inductive Problem
  | unreadable (path reason : String)
  | notAQuery (path : String)
  | notAnIndex
  | badEvent (path : String) (line : Nat) (report : Report)
  | refused (report : Report)
  /-- A computation crashed, which none does on the store of this command. -/
  | crashed
deriving Repr, DecidableEq

/-- The wording of a problem. -/
def Problem.message : Problem → String
  | unreadable path reason => path ++ ": " ++ reason
  | notAQuery path => path ++ ": invalid query"
  | notAnIndex => "--index must be a JSON array of values"
  | badEvent path line report => path ++ ":" ++ toString line ++ ": " ++ report.message
  | refused report => report.message
  | crashed => "crashed"

/-- What the command prints on the error stream. -/
def Problem.line (p : Problem) : String := "tally: " ++ p.message

/-- The name under which the command opens its aggregation. -/
def aggregationName : String := "cli"

/-! ## Reading -/

/-- The content of a file. -/
def Source.read (s : Source) : Except Problem String :=
  s.content.mapError (.unreadable s.path)

/-- The configuration of a run. -/
def readConfig : Option Source → Except Problem Config
  | none => .ok {}
  | some s => do (Config.ofString (← s.read)).mapError fun e => .refused (.ofError (.badConfig e))

/-- The query of a run. -/
def readQuery (s : Source) : Except Problem Query := do
  match Query.ofString? (← s.read) with
  | some q => return q
  | none => throw (.notAQuery s.path)

/-- The index values of a run. -/
def readIndex : Option String → Except Problem (Option (List Value))
  | none => .ok none
  | some text =>
    match Json.ofString? text with
    | some (.list items) => .ok (some (Value.itemsOfJson items))
    | _ => .error .notAnIndex

/-- The documents of numbered lines, of which blank ones are skipped. -/
def readLines (path : String) : List (List Char × Nat) → Except Problem (List Document)
  | [] => .ok []
  | (line, number) :: rest =>
    -- Blank lines count, so that a problem is told under the number an editor shows.
    if line.all Text.isBlank then readLines path rest
    else
      match Document.ofString? (String.ofList line) with
      | none => .error (.badEvent path number (.ofError .notADocument))
      | some doc => do return doc :: (← readLines path rest)

/-- The documents of a file, one a line. -/
def readEvents (s : Source) : Except Problem (List Document) := do
  readLines s.path ((Text.lines (← s.read).toList).zipIdx 1)

/-! ## Running -/

/-- A computation of the command on an aggregation. -/
abbrev Run (α : Type) := Action Problem Aggregation α

/-- Tells the reports of a computation as problems. -/
def refused {σ α : Type} (act : Action Report σ α) : Action Problem σ α := act.mapError .refused

/-- Ingests the events and takes out those to retract, with a commit after each. -/
def feed (r : Request) : Run Unit := do
  let events ← Action.ofExcept (readEvents r.events)
  events.forM fun doc => Aggregation.ingest doc
  refused Aggregation.commit
  match r.retract? with
  | none => pure ()
  | some s =>
    let retracted ← Action.ofExcept (readEvents s)
    retracted.forM fun doc => Aggregation.uningest doc
    refused Aggregation.commit

/-- The rows that the command prints. -/
def answer (index? : Option (List Value)) : Run (List Row) :=
  match index? with
  | some values => refused (Aggregation.lookup values)
  | none => refused Aggregation.results

/-- Opens an aggregation and runs a computation on it. -/
def onAggregation {α : Type} (config : Config) (query : Query) (act : Run α) :
    Except (Failure Problem) α := do
  let (opened, _, world) :=
    (refused (Aggregation.openNamed config aggregationName query) :
      Action Problem Unit Aggregation).run () {}
  (act.run (← opened) world).1

/-- The rows that the command prints, or the problem that it tells. -/
def run (r : Request) : Except Problem (List Row) := do
  let config ← readConfig r.config?
  let query ← readQuery r.query
  let index? ← readIndex r.index?
  match onAggregation config query (do feed r; answer index?) with
  | .ok rows => return rows
  | .error (.error p) => throw p
  | .error .crash => throw .crashed

/-- What the command prints for a row. -/
def rowLine (row : Row) : String := row.toJson.render

end Rollup.CommandLine
