import Rollup.Json.Reader
import Rollup.SortedMap

/-!
# Values

A field of an event or of an aggregate holds a `Value`.  Whole numbers and doubles are kept apart: a
JSON number becomes an `int` exactly if it is written without fraction and exponent and fits 64
signed bits, and the writer keeps the two apart by a point or an exponent.

The type is plain data; `Value.WellFormed` says that the fields of every map, at any depth, stand in
ascending order, which is what reading and the operations on documents establish.
-/

namespace Rollup

/-- What a field may hold. -/
inductive Value
  | null
  | bool (b : Bool)
  | int (n : Int64)
  | float (x : Float)
  | text (s : String)
  | list (items : List Value)
  | map (fields : SortedMap String Value)
deriving Repr

/-- A record of named fields, in the order of their names. -/
abbrev Document := SortedMap String Value

namespace Value

instance : Inhabited Value := ⟨.null⟩

/-! ## Views -/

/-- The number that this is, as a double. -/
def float? : Value → Option Float
  | .int n => some (nearestFloat n.toInt)
  | .float x => some x
  | _ => none

/-- The whole part of the number that this is. -/
def int? : Value → Option Int64
  | .int n => some n
  | .float x => truncateInt64? x
  | _ => none

/-- The text that this is. -/
def text? : Value → Option String
  | .text s => some s
  | _ => none

/-- The items of the list that this is. -/
def list? : Value → Option (List Value)
  | .list items => some items
  | _ => none

/-- The record that this is. -/
def map? : Value → Option Document
  | .map fields => some fields
  | _ => none

/-! ## JSON -/

mutual

/-- The JSON tree of a value. -/
def toJson : Value → Json
  | .null => .null
  | .bool b => .bool b
  | .int n => .int n.toInt
  | .float x => .float x
  | .text s => .text s
  | .list items => .list (itemsToJson items)
  | .map ⟨fields⟩ => .object (fieldsToJson fields)

/-- The JSON trees of the items of a list. -/
def itemsToJson : List Value → List Json
  | [] => []
  | v :: rest => v.toJson :: itemsToJson rest

/-- The JSON members of the fields of a map. -/
def fieldsToJson : List (String × Value) → List (String × Json)
  | [] => []
  | (name, v) :: rest => (name, v.toJson) :: fieldsToJson rest

end

mutual

/-- The value that a JSON tree denotes.  The last of several members of one name counts. -/
def ofJson : Json → Value
  | .null => .null
  | .bool b => .bool b
  | .int n =>
    if -0x8000000000000000 ≤ n ∧ n < 0x8000000000000000 then .int (Int64.ofInt n)
    else .float (nearestFloat n)
  | .float x => .float x
  | .text s => .text s
  | .list items => .list (itemsOfJson items)
  | .object members => .map (SortedMap.ofList (fieldsOfJson members))

/-- The values of the items of a JSON list. -/
def itemsOfJson : List Json → List Value
  | [] => []
  | j :: rest => ofJson j :: itemsOfJson rest

/-- The fields of the members of a JSON object, in written order. -/
def fieldsOfJson : List (String × Json) → List (String × Value)
  | [] => []
  | (name, j) :: rest => (name, ofJson j) :: fieldsOfJson rest

end

/-! ## Rendering -/

/-- Doubles in result columns: digits alone, never an exponent, no point behind a whole number. -/
def columnLayout : Decimal.Layout where
  positional _ := true
  marksWhole := false
  plus := []
  tie := .up
  nan := ['N', 'a', 'N']
  infinite negative := (if negative then ['-'] else []) ++ ['i', 'n', 'f']

/-- The text of a value in a result column.  Lists and maps are given as JSON. -/
def render : Value → String
  | .null => ""
  | .bool b => if b then "true" else "false"
  | .int n => String.ofList (Json.intChars n.toInt)
  | .float x => columnLayout.write x
  | .text s => s
  | .list items => (toJson (.list items)).render
  | .map fields => (toJson (.map fields)).render

/-! ## Comparison and order -/

mutual

/-- Whether two values are equal as numbers compare: a NaN differs from itself and the two zeros are
equal, while an integer and a double never are. -/
def alike : Value → Value → Bool
  | .null, .null => true
  | .bool a, .bool b => a == b
  | .int m, .int n => m == n
  | .float x, .float y => x == y
  | .text s, .text t => s == t
  | .list xs, .list ys => itemsAlike xs ys
  | .map ⟨xs⟩, .map ⟨ys⟩ => fieldsAlike xs ys
  | _, _ => false

/-- Whether two lists have equal items. -/
def itemsAlike : List Value → List Value → Bool
  | [], [] => true
  | x :: xs, y :: ys => alike x y && itemsAlike xs ys
  | _, _ => false

/-- Whether two maps have equal fields. -/
def fieldsAlike : List (String × Value) → List (String × Value) → Bool
  | [], [] => true
  | (a, x) :: xs, (b, y) :: ys => a == b && alike x y && fieldsAlike xs ys
  | _, _ => false

end

mutual

/-- The fields of every map in the value ascend by name. -/
def WellFormed : Value → Prop
  | .list items => ItemsWellFormed items
  | .map ⟨fields⟩ => SortedMap.Sorted ⟨fields⟩ ∧ FieldsWellFormed fields
  | _ => True

/-- Every item is well formed. -/
def ItemsWellFormed : List Value → Prop
  | [] => True
  | v :: rest => v.WellFormed ∧ ItemsWellFormed rest

/-- Every field holds a well-formed value. -/
def FieldsWellFormed : List (String × Value) → Prop
  | [] => True
  | (_, v) :: rest => v.WellFormed ∧ FieldsWellFormed rest

end

end Value

end Rollup
