/-!
# Field names

The fields that every aggregate carries beside the columns its query names.  A field whose name
starts with an underscore is private: it never becomes a result column.
-/

namespace Rollup.Field

/-- The number of documents that an aggregate stands for. -/
def count : String := "Count"

/-- The key of the bucket that a forwarded aggregate comes from. -/
def key : String := "_key"

/-- The state that verbs need to fold an aggregate again. -/
def intermediate : String := "_intermediate"

/-- In the state of a mean: the sum of the values. -/
def meanValue : String := "Value"

/-- In the state of a mean: the number of the values. -/
def meanCount : String := "Count"

/-- In the state of a unique count: the slot of the counted part. -/
def keyIndex : String := "KeyIndex"

/-- Whether a field is kept out of result columns. -/
def isPrivate (name : String) : Bool := name.toList.head? = some '_'

end Rollup.Field
