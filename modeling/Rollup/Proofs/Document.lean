import Rollup.Proofs.SortedMap
import Rollup.Verb.Fold

/-!
# Fields of documents

What a look-up finds after a field was written, for plain fields, for the record of verb states and
for single states in it.  `Document.whole` reads a field as a whole number; counts and tallies are
compared through it.
-/

namespace Rollup

namespace Document

variable (d : Document)

/-- The whole number in a field; zero where there is none. -/
def whole (field : String) : Int := (integerOr d field 0).toInt

/-- A field holds this whole number. -/
def HasInt (field : String) (n : Int) : Prop := ∃ m : Int64, d.get? field = some (.int m) ∧ m.toInt = n

theorem get?_insert (field other : String) (value : Value) :
    (d.insert field value).get? other = if other = field then some value else d.get? other :=
  SortedMap.get?_insert d field other value

theorem get?_insert_self (field : String) (value : Value) :
    (d.insert field value).get? field = some value := by
  rw [get?_insert, if_pos rfl]

theorem get?_insert_of_ne {field other : String} (value : Value) (apart : other ≠ field) :
    (d.insert field value).get? other = d.get? other := by
  rw [get?_insert, if_neg apart]

theorem get?_insertIn_of_ne {field other : String} (name : String) (value : Value)
    (apart : other ≠ field) : (insertIn d field name value).get? other = d.get? other :=
  get?_insert_of_ne d _ apart

theorem sub?_insertIn (field name : String) (value : Value) :
    sub? (insertIn d field name value) field = some ((subOrEmpty d field).insert name value) := by
  rw [sub?, insertIn, get?_insert_self]
  rfl

variable {d}

theorem sub?_congr {e : Document} {field : String} (same : d.get? field = e.get? field) :
    sub? d field = sub? e field := by
  rw [sub?, sub?, same]

theorem integerOr_congr {e : Document} {field : String} (default : Int64)
    (same : d.get? field = e.get? field) : integerOr d field default = integerOr e field default := by
  rw [integerOr, integerOr, same]

theorem whole_congr {e : Document} {field : String} (same : d.get? field = e.get? field) :
    whole d field = whole e field := by
  rw [whole, whole, integerOr_congr 0 same]

theorem numberOrZero_congr {e : Document} {field : String} (same : d.get? field = e.get? field) :
    numberOrZero d field = numberOrZero e field := by
  rw [numberOrZero, numberOrZero, same]

theorem integerOr_of_int {field : String} {n : Int64} (found : d.get? field = some (.int n))
    (default : Int64) : integerOr d field default = n := by
  rw [integerOr, found]
  rfl

theorem whole_of_int {field : String} {n : Int64} (found : d.get? field = some (.int n)) :
    whole d field = n.toInt := by
  rw [whole, integerOr_of_int found]

theorem whole_of_none {field : String} (missing : d.get? field = none) : whole d field = 0 := by
  rw [whole, integerOr, missing]
  rfl

end Document

/-! ## States -/

namespace Mean

open Document

theorem state?_congr {d e : Document} (name : String)
    (same : d.get? Field.intermediate = e.get? Field.intermediate) : state? d name = state? e name := by
  rw [state?, state?, sub?_congr same]

theorem state?_insert_of_ne (d : Document) {field : String} (value : Value) (name : String)
    (apart : field ≠ Field.intermediate) : state? (d.insert field value) name = state? d name :=
  state?_congr name (get?_insert_of_ne d value apart.symm)

theorem state?_insertIn_self (d : Document) (name : String) (s : Document) :
    state? (insertIn d Field.intermediate name (.map s)) name = some s := by
  rw [state?, sub?_insertIn, Option.bind_some, sub?, get?_insert_self]
  rfl

theorem state?_insertIn_of_ne (d : Document) {name other : String} (value : Value)
    (apart : other ≠ name) :
    state? (insertIn d Field.intermediate name value) other = state? d other := by
  rw [state?, state?, sub?_insertIn, Option.bind_some, sub?, get?_insert_of_ne _ _ apart, subOrEmpty]
  cases sub? d Field.intermediate with
  | none => rfl
  | some states => rfl

end Mean

end Rollup
