import Rollup.Proofs.Binary64.Whole

/-!
# Equal whole numbers

A double is told by the number that it decodes to, NaN included (`decode_injective`).

Doubles that are the same whole number are equal as doubles compare (`IsWhole.beq`) and can differ in the sign
of a zero only.  What is added up from zero on is never minus zero (`IsProper`), so it is told by the number
(`IsProper.eq`).
-/

namespace Rollup

open Float.Model Float.Model.UnpackedFloat

/-! ## Telling doubles by what they encode -/

/-- Bits other than those of a NaN are told by the number that they encode. -/
theorem ofBits_injective {a b : Nat} (small : a < 2 ^ 64) (small' : b < 2 ^ 64)
    (same : Binary64.ofBits a = Binary64.ofBits b) (number : Binary64.ofBits a ≠ .nan) : a = b := by
  unfold Binary64.ofBits at same number
  simp only at same number
  split at same <;> split at same <;> (try split at same) <;> (try split at same) <;> simp_all <;> omega

theorem unpack_eq_of_decode {x : Float} (nan : Binary64.decode x = .nan) : x.toModel.unpack = .notANumber := by
  rw [decode_eq_ofUnpacked] at nan
  cases unpacked : x.toModel.unpack with
  | notANumber => rfl
  | infinity _ | zero _ | finite _ _ _ _ =>
    rw [unpacked] at nan
    cases nan

theorem toBitVec_of_notANumber {b : BitVec Format.binary64.numBits} (valid : Format.binary64.Valid b)
    (nan : UnpackedFloat.unpack Format.binary64 b = .notANumber) : b = packedNaN Format.binary64 := by
  unfold UnpackedFloat.unpack at nan
  dsimp only at nan
  split at nan
  · next top =>
    split at nan
    · cases nan
    · next payload => exact valid.eq_packedNaN top payload
  · split at nan
    · split at nan <;> cases nan
    · cases nan

/-- There is one NaN, so doubles are told by the numbers that they decode to. -/
theorem decode_injective {x y : Float} (same : Binary64.decode x = Binary64.decode y) : x = y := by
  refine toBits_injective ?_
  by_cases nan : Binary64.decode x = .nan
  · have left := toBitVec_of_notANumber x.toModel.valid (unpack_eq_of_decode nan)
    have right := toBitVec_of_notANumber y.toModel.valid (unpack_eq_of_decode (same.symm.trans nan))
    exact UInt64.toBitVec_inj.1 (left.trans right.symm)
  · exact UInt64.toNat_inj.1 (ofBits_injective x.toBits.toNat_lt y.toBits.toNat_lt same nan)

/-- Doubles are told by what they unpack to. -/
theorem eq_of_unpack {x y : Float} (same : x.toModel.unpack = y.toModel.unpack) : x = y := by
  refine decode_injective ?_
  rw [decode_eq_ofUnpacked, decode_eq_ofUnpacked, same]

/-! ## Comparing whole numbers -/

namespace UnpackedWhole

variable {u v : UnpackedFloat} {a b : Int}

theorem eq_zero_of_zero {s : Sign} (whole : UnpackedWhole (.zero s) a) : a = 0 := by
  generalize own : UnpackedFloat.zero s = u at whole
  cases whole with
  | zero t => rfl
  | nonzero t pos small => cases own

theorem apply_inj {s t : Sign} {n m : Nat} (pos : 0 < n) (same : s.apply n = t.apply m) :
    s = t ∧ n = m := by
  cases s <;> cases t <;> simp [Sign.apply] at same ⊢ <;> omega

/-- The same whole number is unpacked in one way only, but for the sign of zero. -/
theorem eq_or_zero (left : UnpackedWhole u a) (right : UnpackedWhole v a) :
    u = v ∨ ∃ s t, u = .zero s ∧ v = .zero t := by
  generalize own : a = b at right
  cases left with
  | zero s =>
    cases right with
    | zero t => exact .inr ⟨s, t, rfl, rfl⟩
    | @nonzero t n pos small => cases t <;> simp [Sign.apply] at own <;> omega
  | @nonzero s n pos small =>
    cases right with
    | zero t => cases s <;> simp [Sign.apply] at own <;> omega
    | @nonzero t m pos' small' =>
      obtain ⟨rfl, rfl⟩ := apply_inj pos own
      exact .inl rfl

theorem compare_self (whole : UnpackedWhole u a) : u.compare u = some .eq := by
  cases whole with
  | zero s => rfl
  | nonzero s pos small => cases s <;> simp [wholeForm, UnpackedFloat.compare]

/-- What is added to a number that is not minus zero does not make it minus zero. -/
theorem add_ne_negZero (left : UnpackedWhole u a) (proper : u ≠ .zero .negative) (right : UnpackedWhole v b)
    (small : (a + b).natAbs < 2 ^ 53) : UnpackedFloat.add Format.binary64 u v ≠ .zero .negative := by
  intro negative
  have nothing : a + b = 0 := eq_zero_of_zero (negative ▸ left.add right small)
  cases left with
  | zero s =>
    cases right with
    | zero t =>
      cases s with
      | negative => exact proper rfl
      | positive => cases t <;> cases negative
    | nonzero t pos below =>
      cases negative
  | @nonzero s n pos below =>
    cases right with
    | zero t =>
      cases negative
    | @nonzero t m pos' below' =>
      obtain ⟨k, added⟩ := add_wholeForm s t pos pos' below below'
      rw [added, nothing, zero_mul, UnpackedFloat.normalize, compare_eq_iff_eq.2 rfl] at negative
      cases negative

end UnpackedWhole

namespace IsWhole

variable {x y : Float} {a : Int}

/-- A double is told by the number that it decodes to, NaN included (`decode_injective`).

Doubles that are the same whole number are equal. -/
theorem beq (left : IsWhole x a) (right : IsWhole y a) : (x == y) = true := by
  show (x.toModel.unpack.compare y.toModel.unpack == some .eq) = true
  rw [beq_iff_eq]
  rcases UnpackedWhole.eq_or_zero left right with same | ⟨s, t, zero, zero'⟩
  · rw [← same]
    exact UnpackedWhole.compare_self left
  · rw [zero, zero']
    rfl

theorem floorMagnitude_scaled (n k : Nat) : Binary64.floorMagnitude (n * 2 ^ k) (-k) = n := by
  cases k with
  | zero => simp [Binary64.floorMagnitude]
  | succ k => exact Nat.mul_div_cancel n (by positivity)

/-- Cutting the fraction off gives the whole number back. -/
theorem truncateInt64? (whole : IsWhole x a) : truncateInt64? x = some (Int64.ofInt a) := by
  have small := whole.natAbs_lt
  obtain ⟨negative, n, k, decoded, value⟩ := whole.exists_decode
  show (Binary64.decode x).truncate?.map Binary64.clampInt64 = _
  rw [decoded, Binary64.truncate?, Option.map_some, floorMagnitude_scaled, value, clampInt64_eq (by omega) (by omega)]

end IsWhole

/-! ## Whole numbers other than minus zero -/

/-- A double is this whole number, and not minus zero. -/
structure IsProper (x : Float) (n : Int) : Prop where
  isWhole : IsWhole x n
  ne_negZero : x.toModel.unpack ≠ .zero .negative

namespace IsProper

variable {x y : Float} {a b : Int}

theorem zero : IsProper 0.0 0 where
  isWhole := IsWhole.zero
  ne_negZero := by
    show UnpackedFloat.zero .positive ≠ .zero .negative
    simp

theorem add (left : IsProper x a) (right : IsWhole y b) (small : (a + b).natAbs < 2 ^ 53) :
    IsProper (x + y) (a + b) where
  isWhole := left.isWhole.add right small
  ne_negZero := by
    show (Float.Model.pack (UnpackedFloat.add Format.binary64 x.toModel.unpack y.toModel.unpack)).unpack ≠ _
    rw [(UnpackedWhole.add left.isWhole right small).unpack_pack]
    exact UnpackedWhole.add_ne_negZero left.isWhole left.ne_negZero right small

theorem sub (left : IsProper x a) (right : IsWhole y b) (small : (a - b).natAbs < 2 ^ 53) :
    IsProper (x - y) (a - b) where
  isWhole := left.isWhole.sub right small
  ne_negZero := by
    show (Float.Model.pack (UnpackedFloat.sub Format.binary64 x.toModel.unpack y.toModel.unpack)).unpack ≠ _
    rw [Int.sub_eq_add_neg] at small
    rw [(UnpackedWhole.sub left.isWhole right small).unpack_pack, UnpackedWhole.sub_eq_add_neg]
    exact UnpackedWhole.add_ne_negZero left.isWhole left.ne_negZero (UnpackedWhole.neg right) small

/-- A whole number is one such double only. -/
theorem eq (left : IsProper x a) (right : IsProper y a) : x = y := by
  rcases UnpackedWhole.eq_or_zero left.isWhole right.isWhole with same | ⟨s, t, zero, zero'⟩
  · exact eq_of_unpack same
  · cases s with
    | negative => exact absurd zero left.ne_negZero
    | positive =>
      cases t with
      | negative => exact absurd zero' right.ne_negZero
      | positive => exact eq_of_unpack (zero.trans zero'.symm)

end IsProper

end Rollup
