import Rollup.Hash.Xxh3
import Rollup.Key.Part

/-!
# Keys

A `Key` addresses a bucket.  Keys compare part by part, a key before its extensions, so that all
extensions of a key stand next to each other in a sorted scope.

`Key.canonical` is the text of a key, from which work is spread over workers and under which a store
reports a missing entry.
-/

namespace Rollup

/-- The address of a bucket. -/
structure Key where
  parts : List KeyPart
deriving Repr, DecidableEq

namespace Key

instance : Inhabited Key := ⟨⟨[]⟩⟩

instance : Ord Key := ⟨fun a b => compare a.parts b.parts⟩

theorem compare_def (a b : Key) : compare a b = compare a.parts b.parts := rfl

instance : Std.LawfulEqOrd Key where
  compare_self := by simp [compare_def]
  eq_of_compare {a b} h := by
    obtain ⟨a⟩ := a
    obtain ⟨b⟩ := b
    simpa [compare_def] using h

instance : Std.OrientedOrd Key where
  eq_swap {a b} := by
    simp only [compare_def]
    exact Std.OrientedOrd.eq_swap

instance : Std.TransOrd Key where
  isLE_trans {a b c} hab hbc := by
    simp only [compare_def] at hab hbc ⊢
    exact Std.TransCmp.isLE_trans hab hbc

/-- The key of one text, as named scopes have it. -/
def named (name : String) : Key := ⟨[.text name]⟩

/-- The key of one whole number, as appended entries have it. -/
def numbered (n : Int64) : Key := ⟨[.int n]⟩

/-- Whether this key begins with all parts of `front`. -/
def startsWith (key front : Key) : Bool := front.parts.isPrefixOf key.parts

/-- The value that stands for a key inside a document. -/
def toValue (key : Key) : Value := .list (key.parts.map KeyPart.toValue)

/-- The key that a value inside a document stands for. -/
def ofValue? (v : Value) : Option Key :=
  v.list?.bind fun items => (items.mapM KeyPart.ofKeyValue?).map Key.mk

/-! ## Text -/

/-- Doubles in keys: an exponent from 1e16 up and below 1e-4, always a point or an exponent. -/
def floatLayout : Decimal.Layout where
  positional p := -4 ≤ p && p < 16
  marksWhole := true
  plus := []
  tie := .up
  nan := ['N', 'a', 'N']
  infinite negative := (if negative then ['-'] else []) ++ ['i', 'n', 'f']

/-- The characters of a part in the text of a key. -/
def partChars : KeyPart → List Char
  | .null => ['n', 'u', 'l', 'l']
  | .int n => Json.intChars n.toInt
  | .float x _ => floatLayout.chars x
  | .text s => Text.Quoted.encode s.toList

/-- The characters of a key: its parts between brackets, with commas between them. -/
def chars : List KeyPart → List Char
  | [] => ['[', ']']
  | p :: rest => '[' :: partChars p ++ rest.flatMap (fun q => ',' :: partChars q) ++ [']']

/-- The text of a key. -/
def canonical (key : Key) : String := String.ofList (chars key.parts)

/-- The hash of a key's text, by which work is spread over workers. -/
def stableHash (key : Key) : UInt64 := Xxh3.hash key.canonical.toUTF8.data

end Key

end Rollup
