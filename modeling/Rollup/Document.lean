import Rollup.Value

/-!
# Documents

Operations on records that read a field as a number, write into a nested record, and convert a
record to and from JSON text.
-/

namespace Rollup.Document

/-- The number in a field; zero where there is none. -/
def numberOrZero (d : Document) (field : String) : Float :=
  ((d.get? field).bind Value.float?).getD 0.0

/-- The whole part of the number in a field; `default` where there is none. -/
def integerOr (d : Document) (field : String) (default : Int64) : Int64 :=
  ((d.get? field).bind Value.int?).getD default

/-- The record in a field. -/
def sub? (d : Document) (field : String) : Option Document :=
  (d.get? field).bind Value.map?

/-- The record in a field; an empty one where there is none. -/
def subOrEmpty (d : Document) (field : String) : Document := (sub? d field).getD .empty

/-- Writes into the record in a field, which is started afresh where there is none. -/
def insertIn (d : Document) (field name : String) (value : Value) : Document :=
  d.insert field (.map ((subOrEmpty d field).insert name value))

/-- The JSON text of a document. -/
def render (d : Document) : String := (Value.toJson (.map d)).render

/-- The document that a JSON tree denotes, if the tree is an object. -/
def ofJson? : Json → Option Document
  | .object members => some (SortedMap.ofList (Value.fieldsOfJson members))
  | _ => none

/-- The document that a JSON text denotes, if it is the text of an object. -/
def ofString? (text : String) : Option Document := (Json.ofString? text).bind ofJson?

/-- Whether two documents have equal fields, compared as `Value.alike` does. -/
def alike (d e : Document) : Bool := Value.fieldsAlike d.entries e.entries

end Rollup.Document
