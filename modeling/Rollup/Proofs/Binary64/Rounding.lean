import Mathlib
import Rollup.Binary64

/-!
# Doubles with whole mantissas

The sums of an aggregate are sums of doubles, and their exactness rests on what the logical model of
doubles does with numbers that need no rounding.  A whole number below `2 ^ 53` has one form with a
mantissa of 53 bits (`wholeForm`).  Rounding arrives at that form from every scaled mantissa of the
number (`round_whole`), and packing into 64 bits keeps it (`unpack_pack_normal`).

`decode_eq_ofUnpacked` says that `Binary64.decode` reads the same number off the bits as the model.
-/

namespace Rollup

open Float.Model Float.Model.UnpackedFloat

/-! ## Rounding -/

theorem binary64_targetExponent (t : Int) : Format.binary64.targetExponent t = max (t - 53) (-1074) := rfl

theorem shifted_exact (n k : Nat) :
    (⟨n * 2 ^ k, false, false⟩ : ExtendedMantissa) >>> k = ⟨n, false, false⟩ := by
  show k.repeat ExtendedMantissa.shiftRightOne _ = _
  induction k generalizing n with
  | zero => simp [Nat.repeat]
  | succ k ih =>
    have halved := ih (n * 2)
    rw [Nat.mul_assoc, ← Nat.pow_succ'] at halved
    rw [Nat.repeat, halved]
    simp [ExtendedMantissa.shiftRightOne]

theorem log2_mul_two_pow {n : Nat} (pos : 0 < n) (k : Nat) : (n * 2 ^ k).log2 = n.log2 + k := by
  rw [Nat.log2_eq_iff (by positivity)]
  have low := Nat.log2_self_le pos.ne'
  have high := Nat.lt_log2_self (n := n)
  constructor
  · rw [Nat.pow_add]
    exact Nat.mul_le_mul_right _ low
  · rw [show n.log2 + k + 1 = n.log2 + 1 + k by omega, Nat.pow_add _ (n.log2 + 1)]
    exact Nat.mul_lt_mul_of_pos_right high (by positivity)

/-- The form of a positive whole number whose mantissa has 53 bits. -/
def wholeForm (s : Sign) (n : Nat) (pos : 0 < n) : UnpackedFloat :=
  .finite s (n * 2 ^ (52 - n.log2)) (n.log2 - 52) (by positivity)

theorem roundWithAccuracy_whole (s : Sign) {n k : Nat} (pos : 0 < n) (small : n < 2 ^ 53)
    (deep : 52 ≤ n.log2 + k) :
    roundWithAccuracy Format.binary64 s (n * 2 ^ k) (-k) .exact = wholeForm s n pos := by
  have top : n.log2 < 53 := (Nat.log2_lt pos.ne').2 small
  have split : n * 2 ^ k = n * 2 ^ (52 - n.log2) * 2 ^ (n.log2 + k - 52) := by
    rw [Nat.mul_assoc, ← Nat.pow_add]
    congr 2
    omega
  -- The first shift takes off whole zeros, so it is exact, and the second moves nothing.
  have first : shiftToTargetExponent Format.binary64 (n * 2 ^ k) (-k) .exact =
      (⟨n * 2 ^ (52 - n.log2), false, false⟩, (n.log2 : Int) - 52) := by
    unfold shiftToTargetExponent shiftToExponent
    rw [binary64_targetExponent, totalExponent, log2_mul_two_pow pos]
    have amount : (max (((n.log2 + k : Nat) : Int) + 1 + -k - 53) (-1074) - -(k : Int)).toNat =
        n.log2 + k - 52 := by omega
    simp only [amount]
    rw [split]
    refine Prod.ext (shifted_exact _ _) ?_
    show -(k : Int) + _ = _
    omega
  have second : shiftToTargetExponent Format.binary64 (n * 2 ^ (52 - n.log2)) ((n.log2 : Int) - 52)
      .exact = (⟨n * 2 ^ (52 - n.log2), false, false⟩, (n.log2 : Int) - 52) := by
    unfold shiftToTargetExponent shiftToExponent
    rw [binary64_targetExponent, totalExponent, log2_mul_two_pow pos]
    have amount : (max (((n.log2 + (52 - n.log2) : Nat) : Int) + 1 + ((n.log2 : Int) - 52) - 53) (-1074) -
        ((n.log2 : Int) - 52)).toNat = 0 := by omega
    simp only [amount]
    exact Prod.ext rfl (by simp)
  have positive : n * 2 ^ (52 - n.log2) ≠ 0 := by positivity
  unfold roundWithAccuracy
  simp only [first, second, ExtendedMantissa.roundedMantissa, ExtendedMantissa.accuracy,
    Accuracy.roundToNearestEven]
  rw [dif_neg positive]
  rfl

theorem round_whole (s : Sign) {n : Nat} (k : Nat) (pos : 0 < n) (small : n < 2 ^ 53) :
    UnpackedFloat.round Format.binary64 s (n * 2 ^ k) (-k) = wholeForm s n pos := by
  have target : Format.binary64.targetExponent (totalExponent (n * 2 ^ k) (-k)) = max ((n.log2 : Int) - 52) (-1074) := by
    rw [binary64_targetExponent, totalExponent, log2_mul_two_pow pos]
    omega
  have aligned : decreaseExponent (n * 2 ^ k) (-k) (max ((n.log2 : Int) - 52) (-1074)) =
      (n * 2 ^ (k + (-k - max ((n.log2 : Int) - 52) (-1074)).toNat),
        -((k + (-k - max ((n.log2 : Int) - 52) (-1074)).toNat : Nat) : Int)) := by
    unfold decreaseExponent
    refine Prod.ext ?_ ?_
    · show (n * 2 ^ k) <<< _ = _
      rw [Nat.shiftLeft_eq, Nat.mul_assoc, ← Nat.pow_add]
    · push_cast
      omega
  unfold UnpackedFloat.round
  simp only [target, aligned]
  exact roundWithAccuracy_whole s pos small (by omega)

/-! ## Packing -/

theorem toNat_implicit (m : BitVec 52) : (1#1 ++ m).toNat = 2 ^ 52 + m.toNat := by
  rw [BitVec.toNat_append, ← Nat.shiftLeft_add_eq_or_of_lt m.isLt]
  simp [Nat.shiftLeft_eq]

/-- A mantissa of 53 bits survives packing. -/
theorem unpack_pack_normal (s : Sign) {m : Nat} {e : Int} (pos : 0 < m) (low : 2 ^ 52 ≤ m)
    (high : m < 2 ^ 53) (least : -1074 ≤ e) (greatest : e ≤ 971) :
    (Float.Model.pack (.finite s m e pos)).unpack = .finite s m e pos := by
  have size : m.log2 = 52 := (Nat.log2_eq_iff pos.ne').2 ⟨low, high⟩
  obtain ⟨b, biased⟩ : ∃ b : Nat, (b : Int) = e + 1075 := ⟨(e + 1075).toNat, by omega⟩
  have exponent : (e + (Format.binary64.exponentBias : Nat) + (52 : Nat)).toNat = b := by
    show (e + (1023 : Nat) + (52 : Nat)).toNat = _
    omega
  have packed : UnpackedFloat.pack Format.binary64 (.finite s m e pos) =
      packComponents Format.binary64 s (BitVec.ofNat 11 b) (BitVec.ofNat 52 m) := by
    unfold UnpackedFloat.pack
    simp only [exponent]
    rw [if_neg (by omega), if_pos (by rw [size]; rfl)]
  have exponentValue : (BitVec.ofNat 11 b).toNat = b := by
    rw [BitVec.toNat_ofNat, Nat.mod_eq_of_lt (by omega)]
  -- The biased exponent is that of a normal number.
  have notTop : BitVec.ofNat 11 b ≠ -1#11 := by
    intro equal
    have values := congrArg BitVec.toNat equal
    rw [exponentValue] at values
    have top : (-1#11 : BitVec 11).toNat = 2047 := rfl
    omega
  have notZero : BitVec.ofNat 11 b ≠ 0#11 := by
    intro equal
    have values := congrArg BitVec.toNat equal
    rw [exponentValue] at values
    have zero : (0#11 : BitVec 11).toNat = 0 := rfl
    omega
  have mantissa : (1#1 ++ BitVec.ofNat 52 m).toNat = m := by
    rw [toNat_implicit, BitVec.toNat_ofNat]
    omega
  show UnpackedFloat.unpack Format.binary64 (UnpackedFloat.pack Format.binary64 _) = _
  rw [packed]
  unfold UnpackedFloat.unpack
  simp only [unpackMantissa_packComponents, unpackExponent_packComponents,
    unpackSign_packComponents, notTop, notZero, if_false, exponentValue, mantissa]
  have bias : (b : Int) - ((Format.binary64.exponentBias : Nat) + (52 : Nat)) = e := by
    show (b : Int) - ((1023 : Nat) + (52 : Nat)) = e
    omega
  simp only [Sign.ofBitVec_toBitVec, bias]

/-- A mantissa of fewer bits survives packing at the least exponent. -/
theorem unpack_pack_subnormal (s : Sign) {m : Nat} (pos : 0 < m) (small : m < 2 ^ 52) :
    (Float.Model.pack (.finite s m (-1074) pos)).unpack = .finite s m (-1074) pos := by
  have size : m.log2 < 52 := (Nat.log2_lt pos.ne').2 small
  have packed : UnpackedFloat.pack Format.binary64 (.finite s m (-1074) pos) =
      packComponents Format.binary64 s 0#11 (BitVec.ofNat 52 m) := by
    unfold UnpackedFloat.pack
    dsimp only
    rw [if_neg (by decide), if_neg (by show m.log2 + 1 ≠ 53; omega)]
  have mantissa : (BitVec.ofNat 52 m).toNat = m := by
    rw [BitVec.toNat_ofNat, Nat.mod_eq_of_lt small]
  have notZero : BitVec.ofNat 52 m ≠ 0#52 := by
    intro equal
    have values := congrArg BitVec.toNat equal
    rw [mantissa] at values
    exact pos.ne' values
  have notTop : (0#11 : BitVec 11) ≠ -1#11 := by decide
  show UnpackedFloat.unpack Format.binary64 (UnpackedFloat.pack Format.binary64 _) = _
  rw [packed]
  unfold UnpackedFloat.unpack
  simp only [unpackMantissa_packComponents, unpackExponent_packComponents, unpackSign_packComponents, notTop, notZero,
    if_false, if_true, dif_neg, not_false_eq_true, Sign.ofBitVec_toBitVec, mantissa]
  rfl

theorem unpack_pack_zero (s : Sign) : (Float.Model.pack (.zero s)).unpack = .zero s := by
  cases s <;> rfl

/-! ## Decoding -/

theorem toNat_unpackMantissa (b : BitVec 64) :
    (@unpackMantissa Format.binary64 b).toNat = b.toNat % 0x10000000000000 := by
  simp [unpackMantissa, BitVec.extractLsb, BitVec.extractLsb'_toNat]

theorem toNat_unpackExponent (b : BitVec 64) :
    (@unpackExponent Format.binary64 b).toNat = b.toNat / 0x10000000000000 % 0x800 := by
  simp [unpackExponent, BitVec.extractLsb, BitVec.extractLsb'_toNat, Nat.shiftRight_eq_div_pow]

theorem toNat_unpackSign (b : BitVec 64) :
    (@unpackSign Format.binary64 b).toNat = b.toNat / 0x8000000000000000 := by
  have := b.isLt
  simp [unpackSign, BitVec.extractLsb, BitVec.extractLsb'_toNat, Nat.shiftRight_eq_div_pow]
  omega

/-- The number that an unpacked double is. -/
def ofUnpacked : UnpackedFloat → Binary64
  | .notANumber => .nan
  | .infinity s => .infinite (s == .negative)
  | .zero s => .finite (s == .negative) 0 (-1074)
  | .finite s m e _ => .finite (s == .negative) m e

theorem decode_eq_ofUnpacked (x : Float) : Binary64.decode x = ofUnpacked x.toModel.unpack := by
  show Binary64.ofBits x.toModel.toBits.toBitVec.toNat =
    ofUnpacked (UnpackedFloat.unpack Format.binary64 x.toModel.toBits.toBitVec)
  generalize x.toModel.toBits.toBitVec = b
  have mantissa := toNat_unpackMantissa b
  have exponent := toNat_unpackExponent b
  have sign := toNat_unpackSign b
  have negative : (Sign.ofBitVec (@unpackSign Format.binary64 b) == .negative) =
      decide (0x8000000000000000 ≤ b.toNat) := by
    generalize @unpackSign Format.binary64 b = v at sign
    unfold Sign.ofBitVec
    by_cases zero : v = 0#1
    · subst zero
      have : ¬ 0x8000000000000000 ≤ b.toNat := by
        have : (0#1).toNat = 0 := rfl
        omega
      rw [if_pos rfl]
      exact (decide_eq_false this).symm
    · have : 0x8000000000000000 ≤ b.toNat := by
        have : v.toNat ≠ 0 := fun h => zero (BitVec.eq_of_toNat_eq h)
        omega
      rw [if_neg zero]
      exact (decide_eq_true this).symm
  -- Both decoders ask the same three questions, one of bits and one of numbers.
  have top : @unpackExponent Format.binary64 b = -1#11 ↔
      b.toNat / 0x10000000000000 % 0x800 = 2047 := by
    rw [← exponent, ← BitVec.toNat_inj]
    rfl
  have bottom : @unpackExponent Format.binary64 b = 0#11 ↔
      b.toNat / 0x10000000000000 % 0x800 = 0 := by
    rw [← exponent, ← BitVec.toNat_inj]
    rfl
  have blank : @unpackMantissa Format.binary64 b = 0#52 ↔
      b.toNat % 0x10000000000000 = 0 := by
    rw [← mantissa, ← BitVec.toNat_inj]
    rfl
  unfold Binary64.ofBits UnpackedFloat.unpack
  simp only [top, bottom, blank]
  split
  · split <;> simp only [ofUnpacked, negative]
  · split
    · next zero =>
      split
      · next none => simp only [ofUnpacked, negative, none]
      · simp only [ofUnpacked, negative, mantissa, exponent, zero]
        rfl
    · simp only [ofUnpacked, negative, toNat_implicit, mantissa, exponent]
      rfl

end Rollup
