/-!
# Verbs

A verb is one step of an aggregation.  It maps documents to bucket entries, and a verb that reduces
also folds the documents of a bucket.  The last two verbs occur only in chained stages: an index and
a unique count each call for one (`Verb.chained?`).
-/

namespace Rollup

/-- How a date becomes a number. -/
inductive DateFormat
  /-- Whole days since 1970-01-01. -/
  | days
deriving Repr, DecidableEq

namespace DateFormat

/-- The name of a format in queries. -/
def label : DateFormat → String
  | days => "Days"

/-- The format with a name. -/
def ofLabel? (label : String) : Option DateFormat :=
  if label = "Days" then some .days else none

end DateFormat

/-- One step of an aggregation. -/
inductive Verb
  /-- Counts the documents of every bucket. -/
  | countDocuments
  /-- Keeps the documents in which a field holds a text. -/
  | only (field value : String)
  /-- Makes a bucket for every value of a field, which becomes a column. -/
  | brokenDownBy (field name : String)
  /-- Adds up a field in a column. -/
  | sum (field name : String)
  /-- Averages a field in a column. -/
  | mean (field name : String)
  /-- Counts the different values of a field in a column. -/
  | countUniqueValues (field name : String)
  /-- Makes the buckets of every value of a field addressable. -/
  | indexedBy (field : String)
  /-- Writes the date in a field as a number into another one. -/
  | transformDateFormat (field name : String) (format : DateFormat)
  /-- Merges buckets that differ in index values only. -/
  | dropIndex
  /-- Merges buckets that differ in a counted value only, and adds up how many there were. -/
  | uniqueTally (name : String)
deriving Repr, DecidableEq

namespace Verb

/-- Whether the verb takes part in folding. -/
def reduces : Verb → Bool
  | countDocuments | brokenDownBy _ _ | sum _ _ | mean _ _ | countUniqueValues _ _
  | uniqueTally _ => true
  | only _ _ | indexedBy _ | transformDateFormat _ _ _ | dropIndex => false

/-- The verb of the chained stage that this verb calls for. -/
def chained? : Verb → Option Verb
  | indexedBy _ => some .dropIndex
  | countUniqueValues _ name => some (.uniqueTally name)
  | _ => none

/-- Whether the verb adds index parts to keys. -/
def isIndex : Verb → Bool
  | indexedBy _ => true
  | _ => false

/-- The name of a verb. -/
def label : Verb → String
  | countDocuments => "CountDocuments"
  | only _ _ => "Only"
  | brokenDownBy _ _ => "BrokenDownBy"
  | sum _ _ => "Sum"
  | mean _ _ => "Mean"
  | countUniqueValues _ _ => "CountUniqueValues"
  | indexedBy _ => "IndexedBy"
  | transformDateFormat _ _ _ => "TransformDateFormat"
  | dropIndex => "DropIndex"
  | uniqueTally _ => "UniqueTally"

/-- The column that the verb writes while folding. -/
def column? : Verb → Option String
  | brokenDownBy _ name | sum _ name | mean _ name | countUniqueValues _ name
  | uniqueTally name => some name
  | _ => none

end Verb

end Rollup
