import Rollup.Document
import Rollup.Field

/-!
# Result rows

A row tells how many events a bucket stands for and gives every public field as a text column.
-/

namespace Rollup

/-- One bucket as a result. -/
structure Row where
  eventCount : Int64
  columns : SortedMap String String
deriving Repr, DecidableEq

namespace Row

/-- The row of an aggregate. -/
def ofDocument (d : Document) : Row where
  eventCount := d.integerOr Field.count 0
  columns := (d.filter fun name _ => name ≠ Field.count ∧ ¬Field.isPrivate name).mapValues
    Value.render

/-- The text of a column. -/
def column? (row : Row) (name : String) : Option String := row.columns.get? name

/-- The JSON tree of a row. -/
def toJson (row : Row) : Json :=
  .object [("event_count", .int row.eventCount.toInt),
    ("columns", .object (row.columns.toList.map fun c => (c.1, .text c.2)))]

end Row

end Rollup
