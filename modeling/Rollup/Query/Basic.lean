import Rollup.Pipeline
import Rollup.Error

/-!
# Queries

A query is a chain of clauses over all events.  The outermost clause is written first and applied
last.  A clause may name the base it applies to or leave it out, in which case it applies to all
events; the two are kept apart, because a query is written back as it was read.

`Query.compile` turns the clauses into verbs, from the innermost on, and lays out their pipeline.
-/

namespace Rollup

/-- One step of a query. -/
inductive Clause
  | only (key value : String)
  | brokenDownBy (key name : String)
  | sum (key name : String)
  | mean (key name : String)
  | countUniqueValues (key name : String)
  | indexedBy (key : String)
  | transformDateFormat (key name format : String)
deriving Repr, DecidableEq

/-- A chain of clauses. -/
inductive Query
  | allEvents
  /-- A clause that names no base. -/
  | alone (clause : Clause)
  /-- A clause and the base it names. -/
  | appliedTo (clause : Clause) (base : Query)
deriving Repr, DecidableEq

namespace Clause

/-- The name of a clause. -/
def label : Clause → String
  | only _ _ => "Only"
  | brokenDownBy _ _ => "BrokenDownBy"
  | sum _ _ => "Sum"
  | mean _ _ => "Mean"
  | countUniqueValues _ _ => "CountUniqueValues"
  | indexedBy _ => "IndexedBy"
  | transformDateFormat _ _ _ => "TransformDateFormat"

/-- The arguments of a clause, with their names, in written order. -/
def arguments : Clause → List (String × String)
  | only key value => [("key", key), ("value", value)]
  | brokenDownBy key name | sum key name | mean key name | countUniqueValues key name =>
    [("key", key), ("name", name)]
  | indexedBy key => [("key", key)]
  | transformDateFormat key name format => [("key", key), ("name", name), ("format", format)]

/-- An argument that must not be empty. -/
def required (clause : Clause) (argument text : String) : Except QueryError String :=
  if text = "" then .error (.emptyArgument clause.label argument) else .ok text

/-- The format with a name. -/
def dateFormat (label : String) : Except QueryError DateFormat :=
  match DateFormat.ofLabel? label with
  | some format => .ok format
  | none => .error (.unsupportedDateFormat label)

/-- The verb of a clause.  Keys and names must not be empty. -/
def verb (clause : Clause) : Except QueryError Verb := do
  match clause with
  | only key value => return .only (← clause.required "key" key) value
  | brokenDownBy key name =>
    return .brokenDownBy (← clause.required "key" key) (← clause.required "name" name)
  | sum key name => return .sum (← clause.required "key" key) (← clause.required "name" name)
  | mean key name => return .mean (← clause.required "key" key) (← clause.required "name" name)
  | countUniqueValues key name =>
    return .countUniqueValues (← clause.required "key" key) (← clause.required "name" name)
  | indexedBy key => return .indexedBy (← clause.required "key" key)
  | transformDateFormat key name format =>
    return .transformDateFormat (← clause.required "key" key) (← clause.required "name" name)
      (← dateFormat format)

end Clause

namespace Query

/-- Applies a clause to a query.  All events are the base that need not be named. -/
def followedBy (base : Query) (clause : Clause) : Query :=
  match base with
  | allEvents => alone clause
  | base => appliedTo clause base

/-- The base that the outermost clause names. -/
def base? : Query → Option Query
  | appliedTo _ base => some base
  | _ => none

/-- The number of bases that are named, one inside the other. -/
def depth : Query → Nat
  | appliedTo _ base => base.depth + 1
  | _ => 0

/-- The clauses in the order in which they apply. -/
def clauses : Query → List Clause
  | allEvents => []
  | alone clause => [clause]
  | appliedTo clause base => base.clauses ++ [clause]

/-- The pipeline of a query. -/
def compile (q : Query) : Except QueryError Pipeline :=
  (q.clauses.mapM Clause.verb).map Pipeline.ofVerbs

end Query

end Rollup
