import Rollup.Key.Part
import Rollup.Proofs.Binary64.Canonical
import Rollup.Proofs.Decimal.Shortest

/-!
# Numbers as key parts

Whole numbers and doubles that are the same number make the same key part, with one exception
(`part_of_number`).  A double other than zero is told by its number (`eq_of_quantity`), and a double is a
whole number of the 64-bit range exactly if its number is (`wholeInt64?_eq_some_iff`), but for the least one:
the test of the range is one of the magnitude, so the double `-2 ^ 63` stays a double.
-/

namespace Rollup

open Decimal

/-- A number, finite or infinite. -/
inductive Quantity
  | finite (q : ℚ)
  | infinite (negative : Bool)
deriving DecidableEq

/-- The number that a double stands for; NaN is none. -/
def Binary64.quantity? : Binary64 → Option Quantity
  | .nan => none
  | .infinite negative => some (.infinite negative)
  | .finite negative m e => some (.finite (signed negative m * 2 ^ e))

/-- The number that a value is. -/
def Value.quantity? : Value → Option Quantity
  | .int n => some (.finite n.toInt)
  | .float x => (Binary64.decode x).quantity?
  | _ => none

namespace Binary64

variable {negative negative' : Bool} {m m' : Nat} {e e' : Int} {n : Int}

/-! ## Doubles are told by their numbers -/

theorem contains_self (pos : 0 < m) : (Neighbourhood.of m e).Contains (m * 2 ^ e) := by
  have unit := unit_of_pos m e
  have value : (m : ℚ) * 2 ^ e = 4 * m * (Neighbourhood.of m e).unit := by
    rw [Neighbourhood.unit_of, zpow_sub₀ (by norm_num)]
    ring
  rw [value]
  refine Neighbourhood.contains_of_lt ?_ ?_
  · rcases lower_of pos e with lower | ⟨-, lower⟩ <;> rw [lower] <;> nlinarith
  · rw [upper_of]
    nlinarith

theorem eq_of_value (mag : IsMagnitude m e) (mag' : IsMagnitude m' e') (pos : 0 < m) (pos' : 0 < m')
    (same : (m : ℚ) * 2 ^ e = m' * 2 ^ e') : m = m' ∧ e = e' := by
  have contains' := contains_self (e := e') pos'
  rw [← same] at contains'
  exact eq_of_contains mag mag' (contains_self pos) contains'

theorem value_eq (negative : Bool) (m : Nat) (e : Int) :
    (signed negative m : ℚ) * 2 ^ e = if negative then -(m * 2 ^ e : ℚ) else m * 2 ^ e := by
  cases negative <;> simp [signed]

theorem value_nonneg (m : Nat) (e : Int) : (0 : ℚ) ≤ m * 2 ^ e := by positivity

/-- The sign and the magnitude of a number other than zero are told by the number. -/
theorem sign_and_magnitude (nonzero : (signed negative m : ℚ) * 2 ^ e ≠ 0)
    (same : (signed negative m : ℚ) * 2 ^ e = signed negative' m' * 2 ^ e') :
    negative = negative' ∧ (m : ℚ) * 2 ^ e = m' * 2 ^ e' := by
  have left := value_nonneg m e
  have right := value_nonneg m' e'
  rw [value_eq] at nonzero
  rw [value_eq, value_eq] at same
  cases negative <;> cases negative' <;> simp only [Bool.false_eq_true, if_true, if_false] at nonzero same
  · exact ⟨rfl, same⟩
  · exact (nonzero (by linarith)).elim
  · exact (nonzero (by linarith)).elim
  · exact ⟨rfl, by linarith⟩

/-- Doubles that stand for the same number are equal, unless the number is zero. -/
theorem eq_of_quantity {x y : Float} (same : (decode x).quantity? = (decode y).quantity?)
    (nonzero : (decode x).quantity? ≠ some (.finite 0)) : x = y := by
  refine decode_injective ?_
  cases left : decode x with
  | nan =>
    rw [left] at same
    cases right : decode y <;> rw [right] at same <;> first | rfl | cases same
  | infinite negative =>
    rw [left] at same
    cases right : decode y <;> rw [right] at same <;> cases same
    rfl
  | finite negative m e =>
    rw [left] at same nonzero
    cases right : decode y with
    | nan | infinite _ =>
      rw [right] at same
      cases same
    | finite negative' m' e' =>
      rw [right] at same
      have number := Quantity.finite.inj (Option.some.inj same)
      have value : (signed negative m : ℚ) * 2 ^ e ≠ 0 := fun zero => nonzero (by rw [quantity?, zero])
      obtain ⟨rfl, magnitude⟩ := sign_and_magnitude value number
      have pos (k : Nat) (f : Int) (own : (signed negative k : ℚ) * 2 ^ f ≠ 0) : 0 < k := by
        rcases Nat.eq_zero_or_pos k with rfl | positive
        · simp [signed] at own
        · exact positive
      obtain ⟨rfl, rfl⟩ := eq_of_value (isMagnitude_of_decode left) (isMagnitude_of_decode right) (pos m e value)
        (pos m' e' (number ▸ value)) magnitude
      rfl

/-! ## Whole numbers -/

theorem cast_floorMagnitude (whole : isWholeMagnitude m e = true) : (floorMagnitude m e : ℚ) = m * 2 ^ e := by
  cases e with
  | ofNat k => simp [floorMagnitude]
  | negSucc k =>
    have divides : 2 ^ (k + 1) ∣ m := Nat.dvd_of_mod_eq_zero (by simpa [isWholeMagnitude] using whole)
    rw [floorMagnitude, Nat.pow_eq, Nat.cast_div divides (by positivity), zpow_negSucc, div_eq_mul_inv]
    push_cast
    rfl

theorem isWholeMagnitude_of_eq (same : (m : ℚ) * 2 ^ e = n) : isWholeMagnitude m e = true := by
  cases e with
  | ofNat k => rfl
  | negSucc k =>
    rw [zpow_negSucc, ← div_eq_mul_inv, div_eq_iff (by positivity)] at same
    have divides : ((2 ^ (k + 1) : ℕ) : ℤ) ∣ m := ⟨n, by push_cast; rw [mul_comm]; exact_mod_cast same⟩
    rw [isWholeMagnitude, beq_iff_eq, Nat.pow_eq]
    exact Nat.mod_eq_zero_of_dvd (Int.natCast_dvd_natCast.1 divides)

theorem whole?_eq_some_iff {b : Binary64} : b.whole? = some n ↔ b.quantity? = some (.finite n) := by
  cases b with
  | nan | infinite _ => simp [whole?, quantity?]
  | finite negative m e =>
    have number (whole : isWholeMagnitude m e = true) :
        ((signed negative (floorMagnitude m e) : ℤ) : ℚ) = signed negative m * 2 ^ e := by
      rw [value_eq, ← cast_floorMagnitude whole]
      cases negative <;> simp [signed]
    rw [whole?, quantity?, Option.some.injEq, Quantity.finite.injEq]
    constructor
    · intro found
      split at found
      · next whole => rw [← number whole, Option.some.inj found]
      · cases found
    · intro same
      have magnitude : (m : ℚ) * 2 ^ e = ((signed negative 1 * n : ℤ) : ℚ) := by
        rw [Int.cast_mul, ← same, value_eq]
        cases negative <;> simp [signed]
      have whole := isWholeMagnitude_of_eq magnitude
      rw [if_pos whole, Option.some.injEq]
      exact_mod_cast (number whole).trans same

end Binary64

/-! ## Whole numbers of the 64-bit range -/

theorem wholeInt64?_eq_some_iff {x : Float} {k : Int64} :
    wholeInt64? x = some k ↔ (Binary64.decode x).quantity? = some (.finite k.toInt) ∧ k ≠ Int64.minValue := by
  have least : Int64.minValue.toInt = -2 ^ 63 := rfl
  have greatest : Int64.maxValue.toInt = 2 ^ 63 - 1 := rfl
  have low := k.minValue_le_toInt
  have high := k.toInt_le
  rw [← Binary64.whole?_eq_some_iff, wholeInt64?]
  constructor
  · intro found
    split at found
    · next n whole =>
      split at found
      · next small =>
        rw [← Option.some.inj found]
        have value : (Int64.ofInt n).toInt = n := Int64.toInt_ofInt_of_le (by omega) (by omega)
        refine ⟨by rw [value]; exact whole, fun same => ?_⟩
        rw [same, least] at value
        omega
      · cases found
    · cases found
  · rintro ⟨whole, greater⟩
    have other : k.toInt ≠ -2 ^ 63 := fun same => greater (Int64.toInt_inj.1 (same.trans least.symm))
    rw [whole]
    simp only
    rw [if_pos (by omega), Int64.ofInt_toInt]

/-- The double that is the least whole number of the 64-bit range. -/
def leastFloat : Float := Float.ofBits 0xC3E0000000000000

theorem quantity?_leastFloat : (Binary64.decode leastFloat).quantity? = some (.finite (-2 ^ 63)) := by
  have decoded : Binary64.decode leastFloat = .finite true (2 ^ 52) 11 := by decide +kernel
  rw [decoded]
  norm_num [Binary64.quantity?, Binary64.signed]

/-- Two values are the least whole number of the 64-bit range, one as a whole number and one as a double. -/
inductive Value.SplitLeast : Value → Value → Prop
  | wholeFirst : SplitLeast (.int Int64.minValue) (.float leastFloat)
  | doubleFirst : SplitLeast (.float leastFloat) (.int Int64.minValue)

namespace KeyPart

variable {x y : Float} {k : Int64}

theorem ofFloat_eq_int_iff : ofFloat x = .int k ↔ wholeInt64? x = some k := by
  unfold ofFloat
  split
  · next n whole => rw [whole, KeyPart.int.injEq, Option.some.injEq]
  · next none => simp [none]

/-- Doubles make the same part exactly if they are the same number. -/
theorem ofFloat_eq_ofFloat_iff :
    ofFloat x = ofFloat y ↔ (Binary64.decode x).quantity? = (Binary64.decode y).quantity? := by
  cases whole : wholeInt64? x with
  | some k =>
    obtain ⟨number, small⟩ := wholeInt64?_eq_some_iff.1 whole
    rw [ofFloat_eq_int_iff.2 whole, eq_comm, ofFloat_eq_int_iff, wholeInt64?_eq_some_iff, number, and_iff_left small,
      eq_comm]
  | none =>
    constructor
    · intro same
      cases whole' : wholeInt64? y with
      | some k => cases whole.symm.trans (ofFloat_eq_int_iff.1 (same.trans (ofFloat_eq_int_iff.2 whole')))
      | none =>
        rw [ofFloat_of_none whole, ofFloat_of_none whole'] at same
        cases same
        rfl
    · intro same
      rw [Binary64.eq_of_quantity same]
      intro zero
      cases whole.symm.trans (wholeInt64?_eq_some_iff (k := 0).2 ⟨zero, by decide⟩)

/-- The least whole number is one double. -/
theorem eq_leastFloat_iff :
    x = leastFloat ↔ (Binary64.decode x).quantity? = some (.finite (Int64.minValue.toInt : ℤ)) := by
  have least : ((Int64.minValue.toInt : ℤ) : ℚ) = -2 ^ 63 := by
    rw [show Int64.minValue.toInt = -2 ^ 63 from rfl]
    norm_num
  rw [least]
  refine ⟨fun same => same ▸ quantity?_leastFloat, fun number => ?_⟩
  refine Binary64.eq_of_quantity (number.trans quantity?_leastFloat.symm) ?_
  rw [number]
  norm_num

/-- A whole number and a double make the same part exactly if they are the same number, other than the least. -/
theorem int_eq_ofFloat_iff :
    .int k = ofFloat x ↔ some (.finite k.toInt) = (Binary64.decode x).quantity? ∧
      ¬ (Value.int k).SplitLeast (.float x) := by
  rw [eq_comm, ofFloat_eq_int_iff, wholeInt64?_eq_some_iff, eq_comm (a := some _)]
  refine and_congr_right fun number => not_congr ?_
  constructor
  · rintro rfl
    rw [eq_leastFloat_iff.2 number]
    exact .wholeFirst
  · rintro ⟨⟩
    rfl

/-- The doubles that are whole numbers of the 64-bit range make the parts of these, but for the least one. -/
theorem ofFloat_eq_ofInt_iff {n : Int} (number : (Binary64.decode x).quantity? = some (.finite n)) (low : -2 ^ 63 ≤ n)
    (high : n < 2 ^ 63) : ofFloat x = .int (Int64.ofInt n) ↔ x ≠ leastFloat := by
  have value : (Int64.ofInt n).toInt = n := Int64.toInt_ofInt_of_le low (by omega)
  rw [ofFloat_eq_int_iff, wholeInt64?_eq_some_iff, value, and_iff_right number, ne_eq, ne_eq, eq_leastFloat_iff,
    number, Option.some.injEq, Quantity.finite.injEq, Int.cast_inj, ← Int64.toInt_inj, value]

end KeyPart

/-- Whole numbers and doubles make parts that compare as equal exactly if they are the same number, finite or
infinite, and not the least whole number of the 64-bit range, once as a whole number and once as a double.  A
double that is a whole number of that range makes the part of that whole number, unless it is the least one. -/
theorem Value.part_of_number {a b : Value} {p q : Quantity} (left : a.quantity? = some p)
    (right : b.quantity? = some q) :
    ∃ u v, KeyPart.ofValue? a = some u ∧ KeyPart.ofValue? b = some v ∧
      (compare u v = .eq ↔ p = q ∧ ¬ a.SplitLeast b) ∧
      ∀ x (n : Int), a = .float x → p = .finite n → -2 ^ 63 ≤ n → n < 2 ^ 63 →
        (u = .int (Int64.ofInt n) ↔ x ≠ leastFloat) := by
  have equal (u v : KeyPart) : compare u v = .eq ↔ u = v := Std.LawfulEqCmp.compare_eq_iff_eq
  -- A whole number and a double are compared by one lemma, whichever comes first.
  have flip (k : Int64) (x : Float) : (Value.float x).SplitLeast (.int k) ↔ (Value.int k).SplitLeast (.float x) := by
    constructor <;> rintro ⟨⟩ <;> constructor
  cases a with
  | null | bool _ | text _ | list _ | map _ => cases left
  | int k =>
    cases b with
    | null | bool _ | text _ | list _ | map _ => cases right
    | int k' =>
      cases left
      cases right
      refine ⟨_, _, rfl, rfl, ?_, nofun⟩
      have apart : ¬ (Value.int k).SplitLeast (.int k') := nofun
      rw [equal, KeyPart.int.injEq, Quantity.finite.injEq, Int.cast_inj, Int64.toInt_inj, and_iff_left apart]
    | float y =>
      cases left
      refine ⟨_, _, rfl, rfl, ?_, nofun⟩
      have number : (Binary64.decode y).quantity? = some q := right
      rw [equal, KeyPart.int_eq_ofFloat_iff, number, Option.some.injEq]
  | float x =>
    have number : (Binary64.decode x).quantity? = some p := left
    refine ⟨.ofFloat x, ?_⟩
    cases b with
    | null | bool _ | text _ | list _ | map _ => cases right
    | int k' =>
      cases right
      refine ⟨_, rfl, rfl, ?_, ?_⟩
      · rw [equal, eq_comm, KeyPart.int_eq_ofFloat_iff, number, Option.some.injEq, flip, eq_comm]
      · rintro _ n ⟨⟩ rfl
        exact KeyPart.ofFloat_eq_ofInt_iff number
    | float y =>
      refine ⟨_, rfl, rfl, ?_, ?_⟩
      · have apart : ¬ (Value.float x).SplitLeast (.float y) := nofun
        rw [equal, KeyPart.ofFloat_eq_ofFloat_iff, number, show (Binary64.decode y).quantity? = some q from right,
          Option.some.injEq, and_iff_left apart]
      · rintro _ n ⟨⟩ rfl
        exact KeyPart.ofFloat_eq_ofInt_iff number

/-- Minus zero makes the part of zero, and a whole number that no double is differs from the double nearest to it. -/
theorem Value.part_of_number_beyond_doubles :
    (∃ u v, KeyPart.ofValue? (.float (Float.ofBits 0x8000000000000000)) = some u ∧
      KeyPart.ofValue? (.int 0) = some v ∧ compare u v = .eq ∧ u = .int 0) ∧
    ∃ u v, KeyPart.ofValue? (.int 9007199254740993) = some u ∧
      KeyPart.ofValue? (.float (Float.ofBits 0x4340000000000000)) = some v ∧ compare u v ≠ .eq := by
  have negZero : (Value.float (Float.ofBits 0x8000000000000000)).quantity? = some (.finite 0) := by
    have decoded : Binary64.decode (Float.ofBits 0x8000000000000000) = .finite true 0 (-1074) := by decide +kernel
    rw [quantity?, decoded]
    norm_num [Binary64.quantity?, Binary64.signed]
  have zero : (Value.int 0).quantity? = some (.finite 0) := rfl
  have nearest : (Value.float (Float.ofBits 0x4340000000000000)).quantity? = some (.finite 9007199254740992) := by
    have decoded : Binary64.decode (Float.ofBits 0x4340000000000000) = .finite false (2 ^ 52) 1 := by decide +kernel
    rw [quantity?, decoded]
    norm_num [Binary64.quantity?, Binary64.signed]
  have between : (Value.int 9007199254740993).quantity? = some (.finite 9007199254740993) := by
    rw [quantity?, show (9007199254740993 : Int64).toInt = 9007199254740993 from rfl]
    norm_num
  obtain ⟨u, v, left, right, equal, whole⟩ := part_of_number negZero zero
  obtain ⟨u', v', left', right', equal', -⟩ := part_of_number between nearest
  refine ⟨⟨u, v, left, right, equal.2 ⟨rfl, nofun⟩, ?_⟩, u', v', left', right', fun same => ?_⟩
  · exact (whole _ 0 rfl rfl (by decide) (by decide)).2 (by decide +kernel)
  · have numbers := Quantity.finite.inj (equal'.1 same).1
    norm_num at numbers

/-- The least whole number of the 64-bit range makes two parts, and the double does not make the whole one. -/
theorem Value.least_parted :
    (Value.int Int64.minValue).quantity? = some (.finite (-2 ^ 63)) ∧
      (Value.float leastFloat).quantity? = some (.finite (-2 ^ 63)) ∧
      ∃ u v, KeyPart.ofValue? (.int Int64.minValue) = some u ∧ KeyPart.ofValue? (.float leastFloat) = some v ∧
        compare u v ≠ .eq ∧ v ≠ .int Int64.minValue := by
  refine ⟨?_, quantity?_leastFloat, .int Int64.minValue, .ofFloat leastFloat, rfl, rfl, ?_, ?_⟩
  · rw [quantity?, show Int64.minValue.toInt = -2 ^ 63 from rfl]
    norm_num
  · decide +kernel
  · decide +kernel

end Rollup
