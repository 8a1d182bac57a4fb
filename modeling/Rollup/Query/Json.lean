import Rollup.Json.Reader
import Rollup.Query.Basic

/-!
# Queries as JSON

A query is written as an object whose member `verb` names the outermost clause; the other members
are the arguments of the clause and, under `applies_to`, the base it names.  The reader refuses
unknown, repeated and missing members and members of a wrong type, except that `AllEvents` ignores
all other members.

It also takes a list: the name of the clause, its arguments in order, and perhaps the base.  Inside
another query a clause may be given by its number instead of its name.
-/

namespace Rollup.Query

/-! ## Writing -/

/-- The JSON tree of a query. -/
def toJson : Query → Json
  | allEvents => .object [("verb", .text "AllEvents")]
  | alone clause =>
    .object (("verb", .text clause.label) :: clause.arguments.map fun a => (a.1, .text a.2))
  | appliedTo clause base =>
    .object (("verb", .text clause.label) ::
      (clause.arguments.map fun a => (a.1, .text a.2)) ++ [("applies_to", base.toJson)])

/-! ## Reading -/

/-- What the name of a clause stands for. -/
inductive Form
  | allEvents
  | only
  | brokenDownBy
  | sum
  | mean
  | countUniqueValues
  | indexedBy
  | transformDateFormat
deriving Repr, DecidableEq

namespace Form

/-- All forms, by number. -/
def all : List Form :=
  [allEvents, only, brokenDownBy, sum, mean, countUniqueValues, indexedBy, transformDateFormat]

/-- The name of a form. -/
def label : Form → String
  | allEvents => "AllEvents"
  | only => "Only"
  | brokenDownBy => "BrokenDownBy"
  | sum => "Sum"
  | mean => "Mean"
  | countUniqueValues => "CountUniqueValues"
  | indexedBy => "IndexedBy"
  | transformDateFormat => "TransformDateFormat"

/-- The names of the arguments, in written order. -/
def arguments : Form → List String
  | allEvents => []
  | only => ["key", "value"]
  | brokenDownBy | sum | mean | countUniqueValues => ["key", "name"]
  | indexedBy => ["key"]
  | transformDateFormat => ["key", "name", "format"]

/-- The clause of a form with its arguments. -/
def clause? : Form → List String → Option Clause
  | only, [key, value] => some (.only key value)
  | brokenDownBy, [key, name] => some (.brokenDownBy key name)
  | sum, [key, name] => some (.sum key name)
  | mean, [key, name] => some (.mean key name)
  | countUniqueValues, [key, name] => some (.countUniqueValues key name)
  | indexedBy, [key] => some (.indexedBy key)
  | transformDateFormat, [key, name, format] => some (.transformDateFormat key name format)
  | _, _ => none

/-- The form that a JSON value names.  A number counts only inside another query. -/
def ofJson? (inner : Bool) : Json → Option Form
  | .text s => all.find? fun f => f.label = s
  | .int n => if inner ∧ 0 ≤ n then all[n.toNat]? else none
  | _ => none

end Form

/-- What a member holds: its value, and the query that the value denotes. -/
structure Part where
  value : Json
  query? : Option Query

/-- The text in a member. -/
def Part.text? (p : Part) : Option String :=
  match p.value with
  | .text s => some s
  | _ => none

/-- The base in a member; null names none. -/
def Part.base? (p : Part) : Option (Option Query) :=
  match p.value with
  | .null => some none
  | _ => p.query?.map some

/-- A clause with the base it names, if any. -/
def ofClause (clause : Clause) : Option Query → Query
  | some base => .appliedTo clause base
  | none => .alone clause

/-- The query of an object's members. -/
def ofMembers? (inner : Bool) (members : List (String × Part)) : Option Query := do
  let ([(_, verb)], others) := members.partition fun m => m.1 = "verb" | none
  match ← Form.ofJson? inner verb.value with
  | .allEvents => some .allEvents
  | form =>
    let names := others.map Prod.fst
    if names.Nodup ∧ names.all (fun n => n ∈ form.arguments ∨ n = "applies_to") then
      let arguments ← form.arguments.mapM fun name =>
        (others.lookup name).bind Part.text?
      let clause ← form.clause? arguments
      match others.lookup "applies_to" with
      | none => some (.alone clause)
      | some part => part.base?.map (ofClause clause)
    else none

/-- The query of a list's items. -/
def ofItems? (inner : Bool) : List Part → Option Query
  | [] => none
  | verb :: others => do
    match ← Form.ofJson? inner verb.value with
    | .allEvents => if others.isEmpty then some .allEvents else none
    | form =>
      let count := form.arguments.length
      let arguments ← (others.take count).mapM Part.text?
      let clause ← form.clause? arguments
      match others.drop count with
      | [] => some (.alone clause)
      | [part] => part.base?.map (ofClause clause)
      | _ => none

mutual

/-- The query that a JSON tree denotes; `inner` inside another query. -/
def read? (inner : Bool) : Json → Option Query
  | .object members => ofMembers? inner (readMembers members)
  | .list items => ofItems? inner (readItems items)
  | _ => none

/-- The members of an object with the queries that they hold. -/
def readMembers : List (String × Json) → List (String × Part)
  | [] => []
  | (name, j) :: rest => (name, ⟨j, read? true j⟩) :: readMembers rest

/-- The items of a list with the queries that they hold. -/
def readItems : List Json → List Part
  | [] => []
  | j :: rest => ⟨j, read? true j⟩ :: readItems rest

end

/-- The query that a JSON tree denotes. -/
def ofJson? (j : Json) : Option Query := read? false j

/-- The query that a JSON text denotes. -/
def ofString? (text : String) : Option Query := (Json.ofString? text).bind ofJson?

/-- The JSON text of a query. -/
def render (q : Query) : String := q.toJson.render

end Rollup.Query
