import Rollup.Document
import Rollup.Field
import Rollup.Key.Basic

/-!
# Drafts

A `Draft` is what the verbs of one stage make of one document: the key and the document of the
bucket that it will join, unless a verb rejects it.

The key has two regions.  Index parts come first, in the order in which they were added, then the
normal parts.  A normal part is addressed by its slot, its position among the normal parts, so index
parts can come and go without moving a slot.  A finished key with index parts ends in their number,
and `setKey` reads that number back.
-/

namespace Rollup

/-- A bucket entry in the making. -/
structure Draft where
  rejected : Bool := false
  index : List KeyPart := []
  normal : List KeyPart := []
  doc : Document := .empty
deriving Repr

namespace Draft

/-- Rejects the document for good. -/
def reject (d : Draft) : Draft := { d with rejected := true }

/-- The slot of the next normal part. -/
def nextSlot (d : Draft) : Nat := d.normal.length

/-- Adds a normal part, in slot `nextSlot`. -/
def addKey (d : Draft) (part : KeyPart) : Draft := { d with normal := d.normal ++ [part] }

/-- Adds an index part behind the others. -/
def addIndexKey (d : Draft) (part : KeyPart) : Draft := { d with index := d.index ++ [part] }

/-- Removes the part in a slot, which stays as a null. -/
def clearSlot (d : Draft) (slot : Nat) : Draft := { d with normal := d.normal.set slot .null }

/-- Drops all index parts. -/
def dropIndex (d : Draft) : Draft := { d with index := [] }

/-- Writes a field. -/
def setValue (d : Draft) (field : String) (value : Value) : Draft :=
  { d with doc := d.doc.insert field value }

/-- Drops a field. -/
def removeValue (d : Draft) (field : String) : Draft := { d with doc := d.doc.erase field }

/-- Stores the state that a verb needs later under a name. -/
def setState (d : Draft) (name : String) (state : Document) : Draft :=
  { d with doc := Document.insertIn d.doc Field.intermediate name (.map state) }

/-- Replaces the document. -/
def setDocument (d : Draft) (doc : Document) : Draft := { d with doc := doc }

/-- The number of index parts that a part at the end of a key tells. -/
def marker? (part : KeyPart) : Option Nat :=
  part.int?.bind fun n => if 0 ≤ n.toInt then some n.toInt.toNat else none

/-- Replaces the key.  With `marked`, its last part must tell how many of the others are index
parts; otherwise the draft is rejected. -/
def setKey (d : Draft) (key : Key) (marked : Bool) : Draft :=
  if marked then
    let parts := key.parts.dropLast
    match key.parts.getLast?.bind marker? with
    | some n =>
      if n ≤ parts.length then { d with index := parts.take n, normal := parts.drop n }
      else { d with index := [], normal := parts, rejected := true }
    | none => { d with index := [], normal := parts, rejected := true }
  else { d with index := [], normal := key.parts }

/-- All parts of the key, index parts first. -/
def parts (d : Draft) : List KeyPart := d.index ++ d.normal

/-- The part that tells the number of index parts, if there are any. -/
def marker (d : Draft) : List KeyPart :=
  if d.index = [] then [] else [.int (Int64.ofNat d.index.length)]

/-- The entry that this draft has become, unless it was rejected. -/
def finish? (d : Draft) : Option (Key × Document) :=
  if d.rejected then none else some (⟨d.parts ++ d.marker⟩, d.doc)

end Draft

end Rollup
