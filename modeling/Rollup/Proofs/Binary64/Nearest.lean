import Rollup.Proofs.Binary64.Canonical
import Rollup.Proofs.Decimal.Shortest

/-!
# Rounding goes to the nearest double

The logical model of doubles multiplies, divides and converts decimals by exact arithmetic and one rounding.  What is
rounded is a mantissa with two more bits, which say how the rest compares with a half (`Brackets`).  Shifting keeps
what these bits say, so the rounded mantissa is off by half a unit at most, and the magnitude that comes out is one in
whose neighbourhood the exact number lies (`IsNearest`).

No number lies in two neighbourhoods, so a decimal in the neighbourhood of a double's magnitude is converted to that
magnitude (`unpack_ofScientific`).
-/

namespace Rollup

open Float.Model Float.Model.UnpackedFloat Decimal

/-! ## Mantissas with a rest -/

/-- A mantissa with its round bit and its sticky bit brackets `w`: the round bit is a half, and the sticky bit says
that there is more below it. -/
def Brackets (em : ExtendedMantissa) (w : ℚ) : Prop :=
  if em.stickyBit then
    2 * em.mantissa + em.roundBit.toNat < 2 * w ∧ 2 * w < 2 * em.mantissa + em.roundBit.toNat + 1
  else 2 * w = 2 * em.mantissa + em.roundBit.toNat

namespace Brackets

variable {em : ExtendedMantissa} {w : ℚ}

theorem ofExact (m : Nat) : Brackets (.ofMantissaAndAccuracy m .exact) m := by
  simp [Brackets, ExtendedMantissa.ofMantissaAndAccuracy]

theorem halve (brackets : Brackets em w) : Brackets em.shiftRightOne (w / 2) := by
  obtain ⟨m, r, s⟩ := em
  have parity : 2 * (m / 2) + (m % 2 != 0).toNat = m := by
    obtain even | odd := Nat.mod_two_eq_zero_or_one m
    · simp [even]
      omega
    · simp [odd]
      omega
  have cast : (2 * (m / 2 : ℕ) + (m % 2 != 0).toNat : ℚ) = m := by exact_mod_cast parity
  simp only [Brackets, ExtendedMantissa.shiftRightOne, cast] at brackets ⊢
  cases r <;> cases s <;> simp at brackets ⊢ <;> (try constructor) <;> linarith

theorem shift (brackets : Brackets em w) (k : Nat) : Brackets (em >>> k) (w / 2 ^ k) := by
  show Brackets (k.repeat ExtendedMantissa.shiftRightOne em) _
  induction k with
  | zero => simpa [Nat.repeat] using brackets
  | succ k ih =>
    rw [Nat.repeat, pow_succ, ← div_div]
    exact ih.halve

/-- The mantissa is the number without its fraction. -/
theorem mantissa_le (brackets : Brackets em w) : em.mantissa ≤ w ∧ w < em.mantissa + 1 := by
  obtain ⟨m, r, s⟩ := em
  cases r <;> cases s <;> simp [Brackets] at brackets ⊢ <;> (try constructor) <;> linarith

/-- Rounding moves a number by a half at most, and by less than a half to an odd number. -/
theorem near_rounded (brackets : Brackets em w) :
    (2 * em.roundedMantissa - 1 ≤ 2 * w ∧ 2 * w ≤ 2 * em.roundedMantissa + 1) ∧
      (em.roundedMantissa % 2 = 1 → 2 * em.roundedMantissa - 1 < 2 * w ∧ 2 * w < 2 * em.roundedMantissa + 1) := by
  obtain ⟨m, r, s⟩ := em
  cases r <;> cases s <;>
    simp only [Brackets, ExtendedMantissa.roundedMantissa, ExtendedMantissa.accuracy, Accuracy.roundToNearestEven,
      Bool.toNat_true, Bool.toNat_false, Bool.false_eq_true, if_true, if_false] at brackets ⊢
  case true.false =>
    -- A number half way between two goes to the even one.
    obtain even | odd := Nat.mod_two_eq_zero_or_one m
    · rw [even]
      refine ⟨?_, fun odd => by omega⟩
      push_cast at brackets ⊢
      constructor <;> linarith
    · rw [odd]
      refine ⟨?_, fun odd => by omega⟩
      push_cast at brackets ⊢
      constructor <;> linarith
  all_goals
    push_cast at brackets ⊢
    refine ⟨⟨?_, ?_⟩, fun _ => ⟨?_, ?_⟩⟩ <;> linarith

/-- A quotient with what is left over. -/
theorem ofDiv (m : Nat) {d : Nat} (pos : 0 < d) :
    Brackets (.ofMantissaAndAccuracy (m / d) (accuracyOfFraction (m % d) d)) (m / d) := by
  have posQ : (0 : ℚ) < d := Nat.cast_pos.2 pos
  have split : (m : ℚ) = d * (m / d : ℕ) + (m % d : ℕ) := by exact_mod_cast (Nat.div_add_mod m d).symm
  have quotient : (m / d : ℚ) = (m / d : ℕ) + (m % d : ℕ) / d := by
    rw [split]
    field_simp
  unfold accuracyOfFraction
  split
  · next exact =>
    rw [quotient, exact, Nat.cast_zero, zero_div, add_zero]
    exact .ofExact (m / d)
  · next rest =>
    have positive : (0 : ℚ) < (m % d : ℕ) / d := div_pos (by exact_mod_cast Nat.pos_of_ne_zero rest) posQ
    have fraction : ((m % d : ℕ) / d : ℚ) < 1 := (div_lt_one posQ).2 (by exact_mod_cast Nat.mod_lt m pos)
    rw [quotient]
    -- The accuracy tells on which side of a half the fraction lies.
    cases order : compare (2 * (m % d)) d with
    | lt =>
      have half : ((m % d : ℕ) / d : ℚ) < 1 / 2 := by
        rw [div_lt_div_iff₀ posQ (by norm_num), mul_comm, one_mul]
        exact_mod_cast compare_lt_iff_lt.1 order
      simp [Brackets, ExtendedMantissa.ofMantissaAndAccuracy]
      exact ⟨positive, by linarith⟩
    | eq =>
      have half : ((m % d : ℕ) / d : ℚ) = 1 / 2 := by
        rw [div_eq_div_iff posQ.ne' (by norm_num), mul_comm, one_mul]
        exact_mod_cast compare_eq_iff_eq.1 order
      simp [Brackets, ExtendedMantissa.ofMantissaAndAccuracy, half]
      ring
    | gt =>
      have half : (1 / 2 : ℚ) < (m % d : ℕ) / d := by
        rw [div_lt_div_iff₀ (by norm_num) posQ, mul_comm _ (2 : ℚ), one_mul]
        exact_mod_cast compare_gt_iff_gt.1 order
      simp [Brackets, ExtendedMantissa.ofMantissaAndAccuracy]
      constructor <;> linarith

end Brackets

theorem mantissa_shiftRight (em : ExtendedMantissa) (k : Nat) : (em >>> k).mantissa = em.mantissa / 2 ^ k := by
  show (k.repeat ExtendedMantissa.shiftRightOne em).mantissa = _
  induction k with
  | zero => simp [Nat.repeat]
  | succ k ih => rw [Nat.repeat, ExtendedMantissa.shiftRightOne, ih, Nat.div_div_eq_div_mul, pow_succ]

theorem mantissa_ofMantissaAndAccuracy (m : Nat) (a : Accuracy) :
    (ExtendedMantissa.ofMantissaAndAccuracy m a).mantissa = m := by
  cases a with
  | exact => rfl
  | inexact o => cases o <;> rfl

theorem roundedMantissa_cases (em : ExtendedMantissa) :
    em.roundedMantissa = em.mantissa ∨ em.roundedMantissa = em.mantissa + 1 := by
  obtain ⟨m, r, s⟩ := em
  cases r <;> cases s <;>
    simp [ExtendedMantissa.roundedMantissa, ExtendedMantissa.accuracy, Accuracy.roundToNearestEven]
  omega

/-! ## Neighbourhoods -/

open Neighbourhood

/-- A number lies in the neighbourhood of a magnitude, told in units of its last place. -/
theorem contains_of_iff (m : Nat) (e : Int) (w : ℚ) :
    (of m e).Contains (w * 2 ^ e) ↔
      ((of m e).lower ≤ 4 * w ∧ 4 * w ≤ 4 * m + 2) ∧ (m % 2 = 1 → (of m e).lower < 4 * w ∧ 4 * w < 4 * m + 2) := by
  have unit : (2 : ℚ) ^ e = 4 * 2 ^ (e - 2) := by
    rw [zpow_sub₀ (by norm_num)]
    ring
  have pos : (0 : ℚ) < 2 ^ (e - 2) := by positivity
  have number : w * (2 : ℚ) ^ e = 4 * w * 2 ^ (e - 2) := by
    rw [unit]
    ring
  rw [Contains, unit_of, number, upper_of, mul_le_mul_iff_left₀ pos, mul_le_mul_iff_left₀ pos, mul_lt_mul_iff_left₀ pos,
    mul_lt_mul_iff_left₀ pos]
  obtain even | odd := Nat.mod_two_eq_zero_or_one m
  · simp [of, even]
  · simp only [of, odd, one_ne_zero, decide_false, Bool.false_eq_true, if_false, forall_const]
    exact ⟨fun strict => ⟨⟨strict.1.le, strict.2.le⟩, strict⟩, And.right⟩

theorem contains_rounded {em : ExtendedMantissa} {w : ℚ} {e : Int} (brackets : Brackets em w)
    (normal : em.mantissa < 2 ^ 52 → e = -1074) : (of em.roundedMantissa e).Contains (w * 2 ^ e) := by
  obtain ⟨near, strict⟩ := brackets.near_rounded
  have above := brackets.mantissa_le.1
  have least : (0 : ℚ) ≤ em.mantissa := Nat.cast_nonneg _
  have lower : ((of em.roundedMantissa e).lower : ℚ) ≤ 4 * w ∧
      (em.roundedMantissa % 2 = 1 → ((of em.roundedMantissa e).lower : ℚ) < 4 * w) := by
    simp only [of]
    split
    · next power =>
      -- At a power of two the neighbourhood is narrower, but nothing was rounded up to it.
      have whole : 2 ^ 52 ≤ em.mantissa := by
        by_contra less
        have := normal (by omega)
        omega
      have wholeQ : (2 ^ 52 : ℚ) ≤ w := le_trans (by exact_mod_cast whole) above
      rw [power.1]
      norm_num at wholeQ ⊢
      linarith
    · obtain zero | pos := Nat.eq_zero_or_pos em.roundedMantissa
      · rw [zero]
        constructor
        · simp
          linarith
        · simp
      · rw [Nat.cast_sub (by omega)]
        push_cast
        exact ⟨by linarith, fun odd => by linarith [(strict odd).1]⟩
  rw [contains_of_iff]
  exact ⟨⟨lower.1, by linarith⟩, fun odd => ⟨lower.2 odd, by linarith [(strict odd).2]⟩⟩

/-- Half of the least double rounds to zero, and so does all that is less. -/
theorem contains_zero {v : ℚ} (least : 0 ≤ v) (small : v ≤ 2 ^ (-1075 : ℤ)) : (of 0 (-1074)).Contains v := by
  have split : v = v * 2 ^ (1074 : ℤ) * 2 ^ (-1074 : ℤ) := by
    rw [zpow_neg, mul_assoc, mul_inv_cancel₀ (by positivity), mul_one]
  have half : (2 : ℚ) ^ (-1075 : ℤ) * 2 ^ (1074 : ℤ) = 1 / 2 := by
    rw [← zpow_add₀ (by norm_num)]
    norm_num
  have scaled := mul_le_mul_of_nonneg_right small (show (0 : ℚ) ≤ 2 ^ (1074 : ℤ) by positivity)
  have positive : 0 ≤ v * 2 ^ (1074 : ℤ) := by positivity
  have lower : (of 0 (-1074)).lower = 0 := rfl
  rw [half] at scaled
  rw [split, contains_of_iff, lower]
  generalize v * 2 ^ (1074 : ℤ) = w at scaled positive
  push_cast
  refine ⟨⟨?_, ?_⟩, by norm_num⟩ <;> linarith

theorem isMagnitude_zero : IsMagnitude 0 (-1074) := ⟨by norm_num, by norm_num, fun _ => rfl⟩

/-! ## Rounding -/

/-- The unpacked double of a sign and a magnitude. -/
def ofMagnitude (s : Sign) (m : Nat) (e : Int) : UnpackedFloat :=
  if pos : 0 < m then .finite s m e pos else .zero s

/-- An unpacked double is the one nearest to a number with a sign. -/
inductive IsNearest (s : Sign) (v : ℚ) : UnpackedFloat → Prop
  | intro {m : Nat} {e : Int} (mag : IsMagnitude m e) (near : (of m e).Contains v) : IsNearest s v (ofMagnitude s m e)

theorem IsNearest.eq_ofMagnitude {s : Sign} {v : ℚ} {u : UnpackedFloat} (nearest : IsNearest s v u) {m : Nat} {e : Int}
    (mag : IsMagnitude m e) (near : (of m e).Contains v) : u = ofMagnitude s m e := by
  obtain ⟨mag', near'⟩ := nearest
  obtain ⟨rfl, rfl⟩ := eq_of_contains mag' mag near' near
  rfl

/-- The second shift leaves a mantissa of 53 bits as it is. -/
theorem shiftToTargetExponent_of_lt {r : Nat} {t : Int} (small : r < 2 ^ 53) (least : -1074 ≤ t) :
    shiftToTargetExponent Format.binary64 r t .exact = (⟨r, false, false⟩, t) := by
  have bits : r.log2 ≤ 52 := by
    obtain rfl | pos := Nat.eq_zero_or_pos r
    · decide
    · have := (Nat.log2_lt pos.ne').2 small
      omega
  have amount : (Format.binary64.targetExponent (totalExponent r t) - t).toNat = 0 := by
    rw [binary64_targetExponent, totalExponent]
    omega
  unfold shiftToTargetExponent shiftToExponent
  simp only [amount]
  exact Prod.ext rfl (by simp)

/-- A mantissa that was rounded up to 54 bits is halved. -/
theorem shiftToTargetExponent_carry {t : Int} (least : -1074 ≤ t) :
    shiftToTargetExponent Format.binary64 (2 ^ 53) t .exact = (⟨2 ^ 52, false, false⟩, t + 1) := by
  have amount : (Format.binary64.targetExponent (totalExponent (2 ^ 53) t) - t).toNat = 1 := by
    rw [binary64_targetExponent, totalExponent, Nat.log2_two_pow]
    omega
  unfold shiftToTargetExponent shiftToExponent
  simp only [amount]
  rfl

/-- Rounding in two shifts: the second one only takes a carry back. -/
theorem roundWithAccuracy_eq (s : Sign) {m : Nat} {e t : Int} {a : Accuracy} {em : ExtendedMantissa}
    (reached : shiftToTargetExponent Format.binary64 m e a = (em, t)) (least : -1074 ≤ t) (below : em.mantissa < 2 ^ 53) :
    roundWithAccuracy Format.binary64 s m e a =
      if em.roundedMantissa < 2 ^ 53 then ofMagnitude s em.roundedMantissa t else ofMagnitude s (2 ^ 52) (t + 1) := by
  have either := roundedMantissa_cases em
  unfold roundWithAccuracy
  simp only [reached]
  by_cases small : em.roundedMantissa < 2 ^ 53
  · have second := shiftToTargetExponent_of_lt small least
    simp only [second]
    rw [if_pos small, ofMagnitude]
    obtain zero | pos := Nat.eq_zero_or_pos em.roundedMantissa
    · rw [dif_pos zero, dif_neg (by omega)]
    · rw [dif_neg pos.ne', dif_pos pos]
  · have carried : em.roundedMantissa = 2 ^ 53 := by omega
    rw [if_neg small]
    simp only [carried, shiftToTargetExponent_carry least]
    rfl

/-- A mantissa of at least 53 bits, or one at the least exponent, is rounded to the nearest double. -/
theorem isNearest_roundWithAccuracy (s : Sign) {m : Nat} {e : Int} {a : Accuracy} {w : ℚ}
    (brackets : Brackets (.ofMantissaAndAccuracy m a) w) (deep : 52 ≤ m.log2 ∨ e ≤ -1074) :
    IsNearest s (w * 2 ^ e) (roundWithAccuracy Format.binary64 s m e a) := by
  have target : Format.binary64.targetExponent (totalExponent m e) = max ((m.log2 : Int) + e - 52) (-1074) := by
    rw [binary64_targetExponent, totalExponent]
    omega
  obtain ⟨k, shifted⟩ : ∃ k : Nat, e + k = max ((m.log2 : Int) + e - 52) (-1074) :=
    ⟨(max ((m.log2 : Int) + e - 52) (-1074) - e).toNat, by omega⟩
  set t := max ((m.log2 : Int) + e - 52) (-1074) with own
  set em := ExtendedMantissa.ofMantissaAndAccuracy m a >>> k with first
  have reached : shiftToTargetExponent Format.binary64 m e a = (em, t) := by
    have amount : (t - e).toNat = k := by omega
    unfold shiftToTargetExponent shiftToExponent
    simp only [target, amount, shifted]
    rfl
  have held : Brackets em (w / 2 ^ k) := brackets.shift k
  have number : w * 2 ^ e = w / 2 ^ k * 2 ^ t := by
    rw [← shifted, zpow_add₀ (by norm_num), zpow_natCast]
    field_simp
  have mantissa : em.mantissa = m / 2 ^ k := by rw [first, mantissa_shiftRight, mantissa_ofMantissaAndAccuracy]
  have below : em.mantissa < 2 ^ 53 := by
    rw [mantissa, Nat.div_lt_iff_lt_mul (by positivity), ← pow_add]
    exact Nat.lt_log2_self.trans_le (Nat.pow_le_pow_right (by decide) (by omega))
  have normal : em.mantissa < 2 ^ 52 → t = -1074 := by
    intro less
    by_contra more
    have bits : m.log2 = 52 + k := by omega
    have nonzero : m ≠ 0 := by
      rintro rfl
      rw [Nat.log2_zero] at bits
      omega
    rw [mantissa, Nat.div_lt_iff_lt_mul (by positivity), ← pow_add, ← bits] at less
    exact absurd (Nat.log2_self_le nonzero) (by omega)
  have either := roundedMantissa_cases em
  rw [roundWithAccuracy_eq s reached (by omega) below, number]
  split
  · next small => exact .intro ⟨small, by omega, fun less => normal (by omega)⟩ (contains_rounded held normal)
  · next carry =>
    -- Only a mantissa of ones is rounded up to a power of two, and the narrower side of that one holds the number.
    have last : em.mantissa = 2 ^ 53 - 1 := by omega
    have rounded : em.roundedMantissa = 2 ^ 53 := by omega
    have lower := held.near_rounded.1.1
    have upper := held.mantissa_le.2
    rw [rounded] at lower
    rw [last] at upper
    refine .intro ⟨by norm_num, by omega, fun less => by omega⟩ ?_
    have half : w / 2 ^ k * 2 ^ t = w / 2 ^ k / 2 * 2 ^ (t + 1) := by
      rw [zpow_add_one₀ (by norm_num)]
      ring
    have narrow : (of (2 ^ 52) (t + 1)).lower = 2 ^ 54 - 1 := by
      simp only [of]
      rw [if_pos (by omega)]
      norm_num
    rw [half, contains_of_iff, narrow]
    push_cast at lower upper ⊢
    refine ⟨⟨?_, ?_⟩, by norm_num⟩ <;> linarith

/-! ## Products and quotients -/

theorem isNearest_mul (s s' : Sign) {m m' : Nat} (e e' : Int) (pos : 0 < m) (pos' : 0 < m') (large : 2 ^ 52 ≤ m) :
    IsNearest (s * s') (m * 2 ^ e * (m' * 2 ^ e'))
      (UnpackedFloat.mul Format.binary64 (.finite s m e pos) (.finite s' m' e' pos')) := by
  have deep : 52 ≤ (m * m').log2 := by
    rw [Nat.le_log2 (by positivity)]
    exact large.trans (Nat.le_mul_of_pos_right m pos')
  have value : (m * 2 ^ e * (m' * 2 ^ e') : ℚ) = (m * m' : ℕ) * 2 ^ (e + e') := by
    rw [zpow_add₀ (by norm_num)]
    push_cast
    ring
  rw [value]
  exact isNearest_roundWithAccuracy (s * s') (.ofExact (m * m')) (.inl deep)

theorem isNearest_div (s s' : Sign) {m m' : Nat} (e e' : Int) (pos : 0 < m) (pos' : 0 < m') :
    IsNearest (s / s') (m * 2 ^ e / (m' * 2 ^ e'))
      (UnpackedFloat.div Format.binary64 (.finite s m e pos) (.finite s' m' e' pos')) := by
  have target : Format.binary64.targetExponent (totalExponent m e - totalExponent m' e') =
      max ((m.log2 : Int) - m'.log2 + (e - e') - 53) (-1074) := by
    rw [binary64_targetExponent, totalExponent, totalExponent]
    omega
  obtain ⟨k, shifted⟩ : ∃ k : Nat, min (e - e') (max ((m.log2 : Int) - m'.log2 + (e - e') - 53) (-1074)) + k = e - e' :=
    ⟨(e - e' - min (e - e') (max ((m.log2 : Int) - m'.log2 + (e - e') - 53) (-1074))).toNat, by omega⟩
  set t := min (e - e') (max ((m.log2 : Int) - m'.log2 + (e - e') - 53) (-1074)) with own
  have core : divCore Format.binary64 m e m' e' = (m * 2 ^ k / m', t, accuracyOfFraction (m * 2 ^ k % m') m') := by
    have amount : (e - e' - t).toNat = k := by omega
    unfold divCore
    simp only [target, ← own, amount, Nat.shiftLeft_eq]
  have value : (m * 2 ^ e / (m' * 2 ^ e') : ℚ) = (m * 2 ^ k : ℕ) / m' * 2 ^ t := by
    have whole : (2 : ℚ) ^ e = 2 ^ e' * (2 ^ k * 2 ^ t) := by
      rw [← zpow_natCast, ← zpow_add₀ (by norm_num), ← zpow_add₀ (by norm_num)]
      congr 1
      omega
    rw [whole]
    push_cast
    field_simp
  -- The dividend is shifted so far that the quotient has all the bits that are kept.
  have deep : 52 ≤ (m * 2 ^ k / m').log2 ∨ t ≤ -1074 := by
    by_contra shallow
    obtain ⟨few, above⟩ := not_or.1 shallow
    have bits : m'.log2 + 1 + 52 ≤ m.log2 + k := by omega
    have quotient : 2 ^ 52 ≤ m * 2 ^ k / m' := by
      rw [Nat.le_div_iff_mul_le pos']
      calc
        2 ^ 52 * m' ≤ 2 ^ 52 * 2 ^ (m'.log2 + 1) := Nat.mul_le_mul_left _ Nat.lt_log2_self.le
        _ = 2 ^ (m'.log2 + 1 + 52) := by rw [← pow_add, Nat.add_comm]
        _ ≤ 2 ^ (m.log2 + k) := Nat.pow_le_pow_right (by decide) bits
        _ ≤ m * 2 ^ k := by
          rw [pow_add]
          exact Nat.mul_le_mul_right _ (Nat.log2_self_le pos.ne')
    exact few ((Nat.le_log2 (by omega)).2 quotient)
  have rounded : UnpackedFloat.div Format.binary64 (.finite s m e pos) (.finite s' m' e' pos') =
      roundWithAccuracy Format.binary64 (s / s') (divCore Format.binary64 m e m' e').1
        (divCore Format.binary64 m e m' e').2.1 (divCore Format.binary64 m e m' e').2.2 := rfl
  rw [value, rounded, core]
  exact isNearest_roundWithAccuracy (s / s') (.ofDiv _ pos') deep

/-! ## Decimals -/

/-- The sign that a flag stands for. -/
def signOf (negative : Bool) : Sign := if negative then .negative else .positive

theorem unpack_of_decode {x : Float} {negative : Bool} {m : Nat} {e : Int}
    (decoded : Binary64.decode x = .finite negative m e) : x.toModel.unpack = ofMagnitude (signOf negative) m e := by
  rw [decode_eq_ofUnpacked] at decoded
  have sign (s : Sign) : signOf (s == .negative) = s := by cases s <;> rfl
  cases unpacked : x.toModel.unpack with
  | notANumber | infinity _ =>
    rw [unpacked] at decoded
    cases decoded
  | zero s =>
    rw [unpacked] at decoded
    cases decoded
    rw [sign]
    rfl
  | finite s m e pos =>
    rw [unpacked] at decoded
    cases decoded
    rw [sign, ofMagnitude, dif_pos pos]

/-- The powers of ten up to the 22nd are doubles. -/
theorem unpack_powerOfTen {k : Nat} (small : k < Float.exactlyRepresentablePowersOfTen.size) :
    ∃ m e, ∃ pos : 0 < m, Float.exactlyRepresentablePowersOfTen[k].toModel.unpack = .finite .positive m e pos ∧
      (m * 2 ^ e : ℚ) = 10 ^ k := by
  have table : ∀ k : Fin 23,
      Binary64.decode Float.exactlyRepresentablePowersOfTen[k.val] =
        .finite false (10 ^ k.val * 2 ^ 52 / 2 ^ (10 ^ k.val).log2) ((10 ^ k.val).log2 - 52) ∧
      0 < 10 ^ k.val * 2 ^ 52 / 2 ^ (10 ^ k.val).log2 ∧
      10 ^ k.val * 2 ^ 52 / 2 ^ (10 ^ k.val).log2 * 2 ^ (10 ^ k.val).log2 = 10 ^ k.val * 2 ^ 52 := by
    decide +kernel
  obtain ⟨decoded, pos, whole⟩ := table ⟨k, small⟩
  refine ⟨_, _, pos, (unpack_of_decode decoded).trans (dif_pos pos), ?_⟩
  have value : ((10 ^ k * 2 ^ 52 / 2 ^ (10 ^ k).log2 : ℕ) * 2 ^ (10 ^ k).log2 : ℚ) = 10 ^ k * 2 ^ 52 := by
    exact_mod_cast whole
  rw [zpow_sub₀ (by norm_num), zpow_natCast, ← mul_div_assoc, value]
  exact mul_div_cancel_right₀ _ (by norm_num)

/-- Whole numbers of 53 bits are doubles. -/
theorem unpack_toFloat {n : Nat} (pos : 0 < n) (small : n < 2 ^ 53) :
    ∃ m e, ∃ pos : 0 < m, n.toUInt64.toFloat.toModel.unpack = .finite .positive m e pos ∧ 2 ^ 52 ≤ m ∧
      (m * 2 ^ e : ℚ) = n := by
  have whole := IsWhole.toFloat small
  unfold IsWhole at whole
  generalize n.toUInt64.toFloat.toModel.unpack = u at whole ⊢
  generalize own : (n : Int) = k at whole
  cases whole with
  | zero s => omega
  | @nonzero s k positive below =>
    obtain ⟨rfl, rfl⟩ : s = .positive ∧ k = n := by cases s <;> simp [Sign.apply] at own ⊢ <;> omega
    have top : k.log2 < 53 := (Nat.log2_lt positive.ne').2 below
    refine ⟨_, _, _, rfl, ?_, ?_⟩
    · have size := Nat.mul_le_mul_right (2 ^ (52 - k.log2)) (Nat.log2_self_le positive.ne')
      rwa [← pow_add, show k.log2 + (52 - k.log2) = 52 by omega] at size
    · have exponent : (k.log2 : ℤ) - 52 = -((52 - k.log2 : ℕ) : ℤ) := by omega
      rw [exponent, zpow_neg, zpow_natCast]
      push_cast
      field_simp

theorem mul_eq_pack (x y : Float) :
    x * y = .ofModel (.pack (UnpackedFloat.mul Format.binary64 x.toModel.unpack y.toModel.unpack)) := rfl

theorem div_eq_pack (x y : Float) :
    x / y = .ofModel (.pack (UnpackedFloat.div Format.binary64 x.toModel.unpack y.toModel.unpack)) := rfl

/-- Few digits and a small exponent are converted by one product or quotient of doubles. -/
theorem isNearest_ofScientific_short {d : Nat} (pos : 0 < d) {k : Int} (short : d < 2 ^ 53 ∧ k.natAbs ≤ 22) :
    ∃ u, IsNearest .positive (d * 10 ^ k) u ∧ Float.ofScientific d (decide (k < 0)) k.natAbs = .ofModel (.pack u) := by
  obtain ⟨m, e, positive, own, large, value⟩ := unpack_toFloat pos short.1
  obtain ⟨m', e', positive', power, value'⟩ := unpack_powerOfTen (Nat.lt_succ_of_le short.2)
  rw [Float.ofScientific, dif_pos short]
  by_cases negative : k < 0
  · have exponent : k = -(k.natAbs : ℤ) := by omega
    have nearest := isNearest_div .positive .positive e e' positive positive'
    rw [value, value', ← zpow_natCast, div_eq_mul_inv, ← zpow_neg, ← exponent] at nearest
    refine ⟨_, nearest, ?_⟩
    rw [decide_eq_true negative, if_pos rfl, div_eq_pack, own]
    exact congrArg (fun v => Float.ofModel (.pack (UnpackedFloat.div Format.binary64 _ v))) power
  · have exponent : k = (k.natAbs : ℤ) := by omega
    have nearest := isNearest_mul .positive .positive e e' positive positive' large
    rw [value, value', ← zpow_natCast, ← exponent] at nearest
    refine ⟨_, nearest, ?_⟩
    rw [decide_eq_false negative, if_neg (by decide), mul_eq_pack, own]
    exact congrArg (fun v => Float.ofModel (.pack (UnpackedFloat.mul Format.binary64 _ v))) power

/-- A decimal too small for its digits to matter is near zero. -/
theorem contains_zero_of_tiny {d : Nat} {k : Int} (tiny : k < -(2 ^ 11 + (d.log2 : ℤ))) :
    (of 0 (-1074)).Contains (d * 10 ^ k) := by
  have digits : (d : ℚ) ≤ 2 ^ (d.log2 + 1) := by exact_mod_cast Nat.lt_log2_self.le
  have power : (10 : ℚ) ^ k ≤ 2 ^ k := by
    obtain ⟨j, rfl⟩ : ∃ j : ℕ, k = -j := ⟨(-k).toNat, by omega⟩
    rw [zpow_neg, zpow_neg, zpow_natCast, zpow_natCast]
    gcongr
    norm_num
  refine contains_zero (by positivity) ?_
  calc
    (d : ℚ) * 10 ^ k ≤ 2 ^ (d.log2 + 1) * 2 ^ k := by gcongr
    _ = 2 ^ ((d.log2 + 1 : ℕ) + k : ℤ) := by rw [zpow_add₀ (by norm_num), zpow_natCast]
    _ ≤ 2 ^ (-1075 : ℤ) := zpow_le_zpow_right₀ (by norm_num) (by omega)

theorem isNearest_ofScientific_model {d : Nat} (pos : 0 < d) {k : Int} (bounded : k ≤ 2 ^ 11) :
    IsNearest .positive (d * 10 ^ k) (UnpackedFloat.ofScientific Format.binary64 d k) := by
  unfold UnpackedFloat.ofScientific
  rw [dif_neg pos.ne', if_neg (show ¬ k > 2 ^ 11 by omega)]
  split
  · next tiny => exact .intro isMagnitude_zero (contains_zero_of_tiny tiny)
  split
  · next whole =>
    -- The power is multiplied by exactly, since it is a whole number.
    have value : (d * 10 ^ k : ℚ) = (d <<< 53 : ℕ) * 2 ^ (-53 : ℤ) * ((10 ^ k.toNat : ℕ) * 2 ^ (0 : ℤ)) := by
      conv_lhs => rw [← Int.toNat_of_nonneg whole, zpow_natCast]
      rw [Nat.shiftLeft_eq, zpow_zero, zpow_neg, mul_one]
      push_cast
      field_simp
    have large : 2 ^ 52 ≤ d <<< 53 := by
      rw [Nat.shiftLeft_eq]
      omega
    rw [value]
    exact isNearest_mul .positive .positive _ _ (by omega) (by positivity) large
  · next fraction =>
    -- A negative power is divided by, and so is still a whole number.
    have negative : k = -((-k).toNat : ℤ) := by omega
    have value : (d * 10 ^ k : ℚ) = d * 2 ^ (0 : ℤ) / ((10 ^ (-k).toNat : ℕ) * 2 ^ (0 : ℤ)) := by
      conv_lhs => rw [negative, zpow_neg, zpow_natCast]
      rw [zpow_zero]
      push_cast
      field_simp
    rw [value]
    exact isNearest_div .positive .positive _ _ pos (by positivity)

theorem ofScientific_zero (negative : Bool) (k : Nat) :
    Float.ofScientific 0 negative k = .ofModel (.pack (.zero .positive)) := by
  have nothing : (Nat.toUInt64 0).toFloat.toModel.unpack = .zero .positive := rfl
  rw [Float.ofScientific]
  split
  · next short =>
    obtain ⟨m, e, pos, power, -⟩ := unpack_powerOfTen (Nat.lt_succ_of_le short.2)
    cases negative with
    | true =>
      rw [if_pos rfl, div_eq_pack, nothing]
      exact congrArg (fun v => Float.ofModel (.pack (UnpackedFloat.div Format.binary64 _ v))) power
    | false =>
      rw [if_neg (by decide), mul_eq_pack, nothing]
      exact congrArg (fun v => Float.ofModel (.pack (UnpackedFloat.mul Format.binary64 _ v))) power
  · rfl

/-- A decimal is converted to the double nearest to it, unless it is beyond all doubles. -/
theorem isNearest_ofScientific {d : Nat} {k : Int} (bounded : 0 < d → k ≤ 2 ^ 11) :
    ∃ u, IsNearest .positive (d * 10 ^ k) u ∧ Float.ofScientific d (decide (k < 0)) k.natAbs = .ofModel (.pack u) := by
  obtain rfl | pos := Nat.eq_zero_or_pos d
  · refine ⟨_, .intro isMagnitude_zero (contains_zero ?_ ?_), ofScientific_zero _ _⟩
    · simp
    · simp only [Nat.cast_zero, zero_mul]
      positivity
  by_cases short : d < 2 ^ 53 ∧ k.natAbs ≤ 22
  · exact isNearest_ofScientific_short pos short
  · refine ⟨_, isNearest_ofScientific_model pos (bounded pos), ?_⟩
    have exponent : (if decide (k < 0) = true then Int.negOfNat k.natAbs else Int.ofNat k.natAbs) = k := by
      by_cases negative : k < 0
      · rw [decide_eq_true negative, if_pos rfl, Int.negOfNat_eq, Int.ofNat_eq_natCast]
        omega
      · rw [decide_eq_false negative, if_neg (by decide), Int.ofNat_eq_natCast]
        omega
    rw [Float.ofScientific, dif_neg short]
    simp only [exponent]
    rfl

/-- The neighbourhoods of doubles end well before the decimals that are beyond all doubles. -/
theorem exponent_le_of_contains {d m : Nat} {k e : Int} (pos : 0 < d) (small : m < 2 ^ 53) (top : e ≤ 971)
    (near : (of m e).Contains (d * 10 ^ k)) : k ≤ 2 ^ 11 := by
  by_contra beyond
  have upper := near.le.2
  rw [upper_of, unit_of] at upper
  have digits : (1 : ℚ) ≤ d := by exact_mod_cast pos
  have mantissa : (4 * m + 2 : ℚ) ≤ 2 ^ (56 : ℤ) := by
    have whole : 4 * m + 2 ≤ 2 ^ 56 := by omega
    exact_mod_cast whole
  have unit : (2 : ℚ) ^ (e - 2) ≤ 2 ^ (969 : ℤ) := zpow_le_zpow_right₀ (by norm_num) (by omega)
  have power : (2 : ℚ) ^ (2 ^ 11 : ℤ) ≤ 10 ^ k :=
    calc
      (2 : ℚ) ^ (2 ^ 11 : ℤ) ≤ 10 ^ (2 ^ 11 : ℤ) := zpow_le_zpow_left₀ (by norm_num) (by norm_num) (by norm_num)
      _ ≤ 10 ^ k := zpow_le_zpow_right₀ (by norm_num) (by omega)
  have less : (2 : ℚ) ^ (56 : ℤ) * 2 ^ (969 : ℤ) < 2 ^ (2 ^ 11 : ℤ) := by
    rw [← zpow_add₀ (by norm_num)]
    exact zpow_lt_zpow_right₀ (by norm_num) (by norm_num)
  have product : (4 * m + 2 : ℚ) * 2 ^ (e - 2) ≤ 2 ^ (56 : ℤ) * 2 ^ (969 : ℤ) := by gcongr
  have least : (10 : ℚ) ^ k ≤ d * 10 ^ k := le_mul_of_one_le_left (by positivity) digits
  linarith

theorem exponent_le_of_decode {x : Float} {negative : Bool} {m : Nat} {e : Int}
    (decoded : Binary64.decode x = .finite negative m e) : e ≤ 971 := by
  unfold Binary64.decode Binary64.ofBits at decoded
  simp only at decoded
  split at decoded
  · split at decoded <;> cases decoded
  split at decoded <;> cases decoded
  · norm_num
  · simp only [Int.ofNat_eq_natCast]
    omega

/-- The magnitude of a double survives packing. -/
theorem unpack_pack_ofMagnitude (s : Sign) {m : Nat} {e : Int} (mag : IsMagnitude m e) (top : e ≤ 971) :
    (Float.Model.pack (ofMagnitude s m e)).unpack = ofMagnitude s m e := by
  unfold ofMagnitude
  split
  · next pos =>
    by_cases normal : 2 ^ 52 ≤ m
    · exact unpack_pack_normal s pos normal mag.small mag.least top
    · obtain rfl := mag.normal (by omega)
      exact unpack_pack_subnormal s pos (by omega)
  · exact unpack_pack_zero s

/-- A decimal in the neighbourhood of the magnitude of a double is converted to that magnitude. -/
theorem unpack_ofScientific {x : Float} {negative : Bool} {m d : Nat} {e k : Int}
    (decoded : Binary64.decode x = .finite negative m e) (near : (of m e).Contains (d * 10 ^ k)) :
    (Float.ofScientific d (decide (k < 0)) k.natAbs).toModel.unpack = ofMagnitude .positive m e := by
  have mag := isMagnitude_of_decode decoded
  have top := exponent_le_of_decode decoded
  obtain ⟨u, nearest, converted⟩ :=
    isNearest_ofScientific (d := d) fun pos => exponent_le_of_contains pos mag.small top near
  rw [converted, nearest.eq_ofMagnitude mag near]
  exact unpack_pack_ofMagnitude .positive mag top

end Rollup
