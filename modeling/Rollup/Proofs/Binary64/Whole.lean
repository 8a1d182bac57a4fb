import Rollup.Proofs.Binary64.Rounding

/-!
# Whole numbers among the doubles

`IsWhole x n` says that the double `x` is the whole number `n`, of a magnitude below `2 ^ 53`.
Conversion from whole numbers, addition and subtraction are exact as long as the result stays below
that bound, and rounding such a double to a 64-bit integer gives the number back.
-/

namespace Rollup

open Float.Model Float.Model.UnpackedFloat

theorem apply_neg (s : Sign) (n : Int) : (-s).apply n = -s.apply n := by
  cases s with
  | negative => exact (neg_neg n).symm
  | positive => rfl

/-- An unpacked double is this whole number, whose magnitude is below `2 ^ 53`. -/
inductive UnpackedWhole : UnpackedFloat → Int → Prop
  | zero (s : Sign) : UnpackedWhole (.zero s) 0
  | nonzero (s : Sign) {n : Nat} (pos : 0 < n) (small : n < 2 ^ 53) :
      UnpackedWhole (wholeForm s n pos) (s.apply n)

/-- A double is this whole number, whose magnitude is below `2 ^ 53`. -/
def IsWhole (x : Float) (n : Int) : Prop := UnpackedWhole x.toModel.unpack n

namespace UnpackedWhole

variable {u v : UnpackedFloat} {a b : Int}

theorem natAbs_lt (whole : UnpackedWhole u a) : a.natAbs < 2 ^ 53 := by
  cases whole with
  | zero s => decide
  | nonzero s pos small => cases s <;> simp [Sign.apply] <;> omega

theorem unpack_pack (whole : UnpackedWhole u a) : (Float.Model.pack u).unpack = u := by
  cases whole with
  | zero s => exact unpack_pack_zero s
  | @nonzero s n pos small =>
    have top : n.log2 < 53 := (Nat.log2_lt pos.ne').2 small
    have positive : n * 2 ^ (52 - n.log2) ≠ 0 := by positivity
    have size : (n * 2 ^ (52 - n.log2)).log2 = 52 := by
      rw [log2_mul_two_pow pos]
      omega
    obtain ⟨low, high⟩ := (Nat.log2_eq_iff positive).1 size
    exact unpack_pack_normal s _ low high (by omega) (by omega)

theorem isWhole (whole : UnpackedWhole u a) : IsWhole (.ofModel (.pack u)) a := by
  show UnpackedWhole (Float.Model.pack u).unpack a
  rw [whole.unpack_pack]
  exact whole

theorem normalize {n : Int} (k : Nat) (small : n.natAbs < 2 ^ 53) :
    UnpackedWhole (UnpackedFloat.normalize Format.binary64 (n * (2 ^ k : Nat)) (-k) .positive) n := by
  have scale : (0 : Int) < (2 ^ k : Nat) := by positivity
  unfold UnpackedFloat.normalize
  rcases lt_trichotomy n 0 with negative | rfl | positive
  · obtain ⟨m, rfl⟩ : ∃ m : Nat, n = -m := ⟨n.natAbs, by omega⟩
    have below : -(m : Int) * (2 ^ k : Nat) < 0 := Int.mul_neg_of_neg_of_pos negative scale
    have magnitude : (-(-(m : Int) * (2 ^ k : Nat))).toNat = m * 2 ^ k := by
      rw [neg_mul, neg_neg, ← Nat.cast_mul, Int.toNat_natCast]
    simp only [compare_lt_iff_lt.2 below, magnitude]
    rw [round_whole .negative k (by omega) (by omega)]
    exact nonzero .negative (by omega) (by omega)
  · simp only [zero_mul, compare_eq_iff_eq.2 rfl]
    exact zero .positive
  · obtain ⟨m, rfl⟩ : ∃ m : Nat, n = m := ⟨n.natAbs, by omega⟩
    have above : 0 < (m : Int) * (2 ^ k : Nat) := Int.mul_pos positive scale
    have magnitude : ((m : Int) * (2 ^ k : Nat)).toNat = m * 2 ^ k := by
      rw [← Nat.cast_mul, Int.toNat_natCast]
    simp only [compare_gt_iff_gt.2 above, magnitude]
    rw [round_whole .positive k (by omega) (by omega)]
    exact nonzero .positive (by omega) (by omega)

theorem neg (whole : UnpackedWhole u a) : UnpackedWhole u.neg (-a) := by
  cases whole with
  | zero s => exact zero _
  | @nonzero s n pos small =>
    rw [← apply_neg]
    exact nonzero (-s) pos small

theorem decreaseExponent_whole {n k : Nat} (small : n.log2 ≤ 52) (deep : 52 - n.log2 ≤ k) :
    (decreaseExponent (n * 2 ^ (52 - n.log2)) (n.log2 - 52) (-k)).1 = n * 2 ^ k := by
  show (n * 2 ^ (52 - n.log2)) <<< ((n.log2 : Int) - 52 - -k).toNat = _
  rw [Nat.shiftLeft_eq, Nat.mul_assoc, ← Nat.pow_add]
  congr 2
  omega

/-- Two whole numbers are brought to one exponent and added there. -/
theorem add_wholeForm (s t : Sign) {n m : Nat} (pos : 0 < n) (pos' : 0 < m) (small : n < 2 ^ 53) (small' : m < 2 ^ 53) :
    ∃ k : Nat, UnpackedFloat.add Format.binary64 (wholeForm s n pos) (wholeForm t m pos') =
      UnpackedFloat.normalize Format.binary64 ((s.apply n + t.apply m) * (2 ^ k : Nat)) (-k) .positive := by
  have top : n.log2 < 53 := (Nat.log2_lt pos.ne').2 small
  have top' : m.log2 < 53 := (Nat.log2_lt pos'.ne').2 small'
  obtain ⟨k, least⟩ : ∃ k : Nat, min ((n.log2 : Int) - 52) ((m.log2 : Int) - 52) = -k :=
    ⟨(52 - min n.log2 m.log2), by omega⟩
  have aligned := decreaseExponent_whole (n := n) (k := k) (by omega) (by omega)
  have aligned' := decreaseExponent_whole (n := m) (k := k) (by omega) (by omega)
  have total : s.apply ((n * 2 ^ k : Nat) : Int) + t.apply ((m * 2 ^ k : Nat) : Int) =
      (s.apply n + t.apply m) * (2 ^ k : Nat) := by
    cases s <;> cases t <;> simp only [Sign.apply] <;> push_cast <;> ring
  exact ⟨k, by simp only [wholeForm, UnpackedFloat.add, least, aligned, aligned', total]⟩

theorem add (left : UnpackedWhole u a) (right : UnpackedWhole v b)
    (small : (a + b).natAbs < 2 ^ 53) :
    UnpackedWhole (UnpackedFloat.add Format.binary64 u v) (a + b) := by
  cases left with
  | zero s =>
    cases right with
    | zero t =>
      rw [UnpackedFloat.add]
      split
      · exact zero s
      · exact zero .positive
    | nonzero t pos below =>
      rw [zero_add]
      exact nonzero t pos below
  | @nonzero s n pos below =>
    cases right with
    | zero t =>
      rw [add_zero]
      exact nonzero s pos below
    | @nonzero t m pos' below' =>
      obtain ⟨k, added⟩ := add_wholeForm s t pos pos' below below'
      rw [added]
      exact normalize k small

theorem sub_eq_add_neg (u v : UnpackedFloat) :
    UnpackedFloat.sub Format.binary64 u v = UnpackedFloat.add Format.binary64 u v.neg := by
  cases u <;> cases v <;>
    simp only [UnpackedFloat.sub, UnpackedFloat.add, UnpackedFloat.neg, apply_neg, Int.sub_eq_add_neg]

theorem sub (left : UnpackedWhole u a) (right : UnpackedWhole v b)
    (small : (a - b).natAbs < 2 ^ 53) :
    UnpackedWhole (UnpackedFloat.sub Format.binary64 u v) (a - b) := by
  rw [sub_eq_add_neg, Int.sub_eq_add_neg]
  exact left.add right.neg (by rwa [← Int.sub_eq_add_neg])

/-- A whole number stays what it is when it is multiplied by one. -/
theorem mul_one (whole : UnpackedWhole u a) :
    UnpackedWhole (UnpackedFloat.mul Format.binary64 u (wholeForm .positive 1 Nat.one_pos)) a := by
  cases whole with
  | zero s => exact zero _
  | @nonzero s n pos small =>
    have top : n.log2 < 53 := (Nat.log2_lt pos.ne').2 small
    have sign : s * Sign.positive = s := by cases s <;> rfl
    have unit : Nat.log2 1 = 0 := by decide
    have mantissa : n * 2 ^ (52 - n.log2) * (1 * 2 ^ (52 - Nat.log2 1)) = n * 2 ^ (104 - n.log2) := by
      rw [unit, Nat.one_mul, Nat.mul_assoc, ← Nat.pow_add]
      congr 2
      omega
    have exponent : (n.log2 : Int) - 52 + (((1 : Nat).log2 : Nat) - 52) = -((104 - n.log2 : Nat) : Int) := by
      rw [unit]
      omega
    simp only [wholeForm, UnpackedFloat.mul, sign, mantissa, exponent]
    rw [roundWithAccuracy_whole s pos small (by omega)]
    exact nonzero s pos small

end UnpackedWhole

namespace IsWhole

variable {x y : Float} {a b : Int}

theorem add (left : IsWhole x a) (right : IsWhole y b) (small : (a + b).natAbs < 2 ^ 53) :
    IsWhole (x + y) (a + b) :=
  (UnpackedWhole.add left right small).isWhole

theorem sub (left : IsWhole x a) (right : IsWhole y b) (small : (a - b).natAbs < 2 ^ 53) :
    IsWhole (x - y) (a - b) :=
  (UnpackedWhole.sub left right small).isWhole

theorem neg (whole : IsWhole x a) : IsWhole (-x) (-a) := (UnpackedWhole.neg whole).isWhole

/-- The conversion from a word is exact. -/
theorem toFloat {n : Nat} (small : n < 2 ^ 53) : IsWhole n.toUInt64.toFloat n := by
  have fits : n.toUInt64.toNat = n := Nat.mod_eq_of_lt (by omega)
  have whole : UnpackedWhole (UnpackedFloat.ofInt Format.binary64 n) n := by
    have scaled := UnpackedWhole.normalize (n := n) 0 (by omega)
    rw [pow_zero, Nat.cast_one, Int.mul_one] at scaled
    exact scaled
  show UnpackedWhole (Float.Model.pack (UnpackedFloat.ofInt Format.binary64 n.toUInt64.toNat)).unpack n
  rw [fits, whole.unpack_pack]
  exact whole

/-- The conversion from a whole number is exact. -/
theorem nearestFloat {n : Int} (small : n.natAbs < 2 ^ 53) : IsWhole (nearestFloat n) n := by
  have ofNat : ∀ n : Nat, n < 2 ^ 53 → IsWhole (Float.ofNat n) n := by
    intro n below
    have one : (Float.ofBits 0x3FF0000000000000).toModel.unpack = wholeForm .positive 1 Nat.one_pos := by
      rfl
    have converted : Float.ofNat n = n.toUInt64.toFloat * Float.ofBits 0x3FF0000000000000 := by
      show Float.ofScientific n false 0 = _
      rw [Float.ofScientific, dif_pos ⟨below, by omega⟩]
      rfl
    rw [converted]
    show IsWhole (.ofModel (.pack (UnpackedFloat.mul Format.binary64 n.toUInt64.toFloat.toModel.unpack
      (Float.ofBits 0x3FF0000000000000).toModel.unpack))) n
    rw [one]
    exact (UnpackedWhole.mul_one (toFloat below)).isWhole
  cases n with
  | ofNat n => exact ofNat n (by simpa using small)
  | negSucc n => exact (ofNat (n + 1) (by omega)).neg

theorem zero : IsWhole 0.0 0 := UnpackedWhole.zero .positive

theorem negZero : IsWhole (-0.0) 0 := UnpackedWhole.zero .negative

theorem natAbs_lt (whole : IsWhole x a) : a.natAbs < 2 ^ 53 := UnpackedWhole.natAbs_lt whole

theorem roundMagnitude_scaled (n k : Nat) : Binary64.roundMagnitude (n * 2 ^ k) (-k) = n := by
  cases k with
  | zero => simp [Binary64.roundMagnitude]
  | succ k =>
    show (n * 2 ^ (k + 1) + Nat.pow 2 k) / Nat.pow 2 (k + 1) = n
    simp only [Nat.pow_eq]
    have half : 2 ^ k < 2 ^ (k + 1) := Nat.pow_lt_pow_right (by omega) (by omega)
    rw [Nat.mul_comm, Nat.mul_add_div (by positivity), Nat.div_eq_of_lt half, Nat.add_zero]

/-- A whole number is decoded as a multiple of a power of two, divided by that power. -/
theorem exists_decode (whole : IsWhole x a) :
    ∃ negative n k, Binary64.decode x = .finite negative (n * 2 ^ k) (-(k : Nat)) ∧ Binary64.signed negative n = a := by
  rw [decode_eq_ofUnpacked]
  unfold IsWhole at whole
  generalize x.toModel.unpack = u at whole
  cases whole with
  | zero s => exact ⟨s == .negative, 0, 1074, by rw [Nat.zero_mul]; rfl, by cases s <;> rfl⟩
  | @nonzero s n pos below =>
    have top : n.log2 < 53 := (Nat.log2_lt pos.ne').2 below
    have exponent : (n.log2 : Int) - 52 = -((52 - n.log2 : Nat) : Int) := by omega
    refine ⟨s == .negative, n, 52 - n.log2, ?_, by cases s <;> rfl⟩
    rw [← exponent]
    rfl

theorem clampInt64_eq {n : Int} (low : -2 ^ 63 ≤ n) (high : n < 2 ^ 63) :
    Binary64.clampInt64 n = Int64.ofInt n := by
  have least : Int64.minValue.toInt = -2 ^ 63 := rfl
  have greatest : Int64.maxValue.toInt = 2 ^ 63 - 1 := rfl
  unfold Binary64.clampInt64
  rw [if_neg (by omega), if_neg (by omega)]

/-- Rounding gives the whole number back. -/
theorem roundToInt64 (whole : IsWhole x a) : roundToInt64 x = Int64.ofInt a := by
  have small := whole.natAbs_lt
  obtain ⟨negative, n, k, decoded, value⟩ := whole.exists_decode
  show (Binary64.decode x).roundInt64 = _
  rw [decoded, Binary64.roundInt64, roundMagnitude_scaled, value, clampInt64_eq (by omega) (by omega)]

end IsWhole

end Rollup
