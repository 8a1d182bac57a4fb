import Rollup.Calendar.Iso8601
import Rollup.Draft
import Rollup.Verb.Basic

/-!
# Mapping

`Verb.map` applies a verb to the draft of one document.  The verb may also change the document it
reads, for the verbs that come after it.
-/

namespace Rollup

/-- A document being mapped: its draft, and the fields that the next verb reads. -/
structure Mapping where
  draft : Draft
  input : Document

namespace Mean

/-- The average of `count` values with this sum, which is not a number for no values. -/
def average (sum : Float) (count : Int64) : Float :=
  if count = 0 then Float.ofBits 0x7FF8000000000000 else sum / nearestFloat count.toInt

/-- The state from which an average is folded again. -/
def state (sum : Float) (count : Int64) : Document :=
  (SortedMap.empty.insert Field.meanValue (.float sum)).insert Field.meanCount (.int count)

end Mean

namespace Verb

/-- The state of a unique count: the slot of the part that it counts. -/
def slotState (slot : Nat) : Document :=
  SortedMap.empty.insert Field.keyIndex (.int (Int64.ofNat slot))

/-- The slot that a forwarded aggregate tells for a unique count. -/
def slot? (input : Document) (name : String) : Option Nat := do
  let states ← input.sub? Field.intermediate
  let state ← states.sub? name
  let slot ← (← state.get? Field.keyIndex).int?
  if 0 ≤ slot.toInt then some slot.toInt.toNat else none

/-- The value of a field with the key part that it makes. -/
def scalar? (input : Document) (field : String) : Option (KeyPart × Value) := do
  let value ← input.get? field
  return (← KeyPart.ofValue? value, value)

/-- The number of days of the date in a field. -/
def days? (input : Document) (field : String) : Option Int := do
  let text ← (← input.get? field).text?
  return (← Calendar.Iso8601.readInstant? text).days

/-- Applies a verb to one document. -/
def map (m : Mapping) : Verb → Mapping
  | countDocuments => { m with draft := m.draft.setValue Field.count (.int 1) }
  | only field value =>
    if (m.input.get? field).bind Value.text? = some value then m
    else { m with draft := m.draft.reject }
  | brokenDownBy field name =>
    match scalar? m.input field with
    | some (part, value) => { m with draft := (m.draft.addKey part).setValue name value }
    | none => { m with draft := m.draft.reject }
  | sum field name =>
    { m with draft := m.draft.setValue name (.float (m.input.numberOrZero field)) }
  | mean field name =>
    let (value, count) : Float × Int64 :=
      match (m.input.get? field).bind Value.float? with
      | some x => (x, 1)
      | none => (0.0, 0)
    { m with
      draft := (m.draft.setValue name (.float (Mean.average value count))).setState name
        (Mean.state value count) }
  | countUniqueValues field name =>
    match scalar? m.input field with
    | some (part, _) =>
      { m with
        draft := ((m.draft.addKey part).setValue name (.int 1)).setState name
          (slotState m.draft.nextSlot) }
    | none => { m with draft := m.draft.reject }
  | indexedBy field =>
    match scalar? m.input field with
    | some (part, _) => { m with draft := m.draft.addIndexKey part }
    | none => { m with draft := m.draft.reject }
  | transformDateFormat field name .days =>
    match days? m.input field with
    | some days => { m with input := m.input.insert name (.int (Int64.ofInt days)) }
    | none => m
  | dropIndex => { m with draft := m.draft.dropIndex }
  | uniqueTally name =>
    match slot? m.input name with
    | some slot => { m with draft := m.draft.clearSlot slot }
    | none => { m with draft := m.draft.reject }

end Verb

end Rollup
