import Rollup.Value

/-!
# Key parts

A bucket key is a list of parts, and a part is a scalar.  A double that is a whole number of the
64-bit range is the part of that whole number, so numerically equal values share a bucket; the
constructor `float` takes only the other doubles.  `null` marks a part that a later stage removed.

Parts are ordered: first `null`, then whole numbers, then doubles, then texts.
-/

namespace Rollup

/-- One part of a bucket key. -/
inductive KeyPart
  | null
  | int (n : Int64)
  | float (x : Float) (not_whole : wholeInt64? x = none)
  | text (s : String)
deriving Repr, DecidableEq

namespace KeyPart

instance : Inhabited KeyPart := ⟨.null⟩

/-- The part of a double. -/
def ofFloat (x : Float) : KeyPart :=
  match h : wholeInt64? x with
  | some n => .int n
  | none => .float x h

theorem ofFloat_of_none {x : Float} (not_whole : wholeInt64? x = none) :
    ofFloat x = .float x not_whole := by
  unfold ofFloat
  split
  · next found =>
    rw [not_whole] at found
    cases found
  · rfl

/-- The part of a value; only numbers and texts have one. -/
def ofValue? : Value → Option KeyPart
  | .int n => some (.int n)
  | .float x => some (.ofFloat x)
  | .text s => some (.text s)
  | _ => none

/-- The part that a value inside a written key stands for; a removed part is written as null. -/
def ofKeyValue? : Value → Option KeyPart
  | .null => some .null
  | v => ofValue? v

/-- The value that stands for a part inside a written key. -/
def toValue : KeyPart → Value
  | .null => .null
  | .int n => .int n
  | .float x _ => .float x
  | .text s => .text s

/-- The whole number that this is. -/
def int? : KeyPart → Option Int64
  | .int n => some n
  | _ => none

/-! ## Order -/

/-- The place of a part's kind among the kinds. -/
def rank : KeyPart → Nat
  | .null => 0
  | .int _ => 1
  | .float _ _ => 2
  | .text _ => 3

/-- Parts of one kind compare by their contents, and others by their kinds. -/
protected def compare : KeyPart → KeyPart → Ordering
  | .int a, .int b => compare a b
  | .float a _, .float b _ => compare (totalRank a) (totalRank b)
  | .text a, .text b => compare a b
  | a, b => compare a.rank b.rank

instance : Ord KeyPart := ⟨KeyPart.compare⟩

theorem compare_def (a b : KeyPart) : compare a b = KeyPart.compare a b := rfl

instance : Std.LawfulEqOrd KeyPart where
  compare_self {a} := by
    cases a <;> simp [compare_def, KeyPart.compare]
  eq_of_compare {a b} h := by
    cases a <;> cases b <;> simp [compare_def, KeyPart.compare, rank] at h ⊢
    case float.float => exact totalRank_injective h
    all_goals exact h

instance : Std.OrientedOrd KeyPart where
  eq_swap {a b} := by
    cases a <;> cases b <;> simp only [compare_def, KeyPart.compare, rank]
    all_goals exact Std.OrientedOrd.eq_swap

instance : Std.TransOrd KeyPart where
  isLE_trans {a b c} hab hbc := by
    cases a <;> cases b <;> cases c <;>
      simp only [compare_def, KeyPart.compare, rank] at hab hbc ⊢
    all_goals first
      | exact Std.TransCmp.isLE_trans hab hbc
      | rfl
      | exact absurd hab (by decide)
      | exact absurd hbc (by decide)

end KeyPart

end Rollup
