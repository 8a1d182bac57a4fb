import Mathlib.Algebra.Order.Field.Power
import Mathlib.Data.Rat.Cast.Order
import Mathlib.Tactic.FieldSimp
import Mathlib.Tactic.Linarith
import Mathlib.Tactic.Positivity
import Mathlib.Tactic.Ring
import Rollup.Decimal.Shortest

/-!
# The shortest decimal tells the double

The decimal that is written for a double rounds to that double (`contains_shortest`): on the grid of 17 digits
one of the value's two neighbours is nearer to it than half the distance to the next double.  No number rounds
to two doubles (`eq_of_contains`), so doubles with one shortest decimal are equal (`eq_of_shortest`).
-/

namespace Rollup.Decimal

/-! ## Decimals -/

/-- The number that a decimal stands for. -/
def Scientific.value (d : Scientific) : ℚ := d.digits * 10 ^ d.exponent

theorem Scientific.value_trim (d : Scientific) : d.trim.value = d.value := by
  induction d using Scientific.trim.induct with
  | case1 d trailing ih =>
    rw [trim, if_pos trailing, ih, value, value]
    have whole : ((10 * (d.digits / 10) : ℕ) : ℚ) = d.digits := congrArg _ (by omega)
    rw [← whole, zpow_add_one₀ (by norm_num)]
    push_cast
    ring
  | case2 d done => rw [trim, if_neg done]

theorem pow_digitCount_le {n : Nat} (pos : 0 < n) : 10 ^ (digitCount n - 1) ≤ n := by
  by_contra less
  have positive : 0 < digitCount n := Nat.length_toDigits_pos
  rcases Nat.eq_zero_or_pos (digitCount n - 1) with single | more
  · rw [single] at less
    omega
  · have fewer := (Nat.length_toDigits_le_iff (by decide) more).2 (Nat.lt_of_not_le less)
    rw [← digitCount] at fewer
    omega

theorem lt_pow_digitCount (n : Nat) : n < 10 ^ digitCount n :=
  (Nat.length_toDigits_le_iff (by decide) Nat.length_toDigits_pos).1 (Nat.le_refl _)

/-- The leading digit of a fraction has an exponent with a power of ten that is not above it. -/
theorem pow_leadingExponent_le {numerator denominator : Nat} (pos : 0 < numerator) (pos' : 0 < denominator) :
    (10 : ℚ) ^ leadingExponent numerator denominator ≤ numerator / denominator := by
  have posQ : (0 : ℚ) < denominator := Nat.cast_pos.2 pos'
  rw [leadingExponent]
  split
  · next whole =>
    have quotient := Nat.div_pos whole pos'
    have positive : 0 < digitCount (numerator / denominator) := Nat.length_toDigits_pos
    have exponent : (digitCount (numerator / denominator) : ℤ) - 1 =
        ((digitCount (numerator / denominator) - 1 : ℕ) : ℤ) := by omega
    rw [exponent, zpow_natCast, le_div_iff₀ posQ]
    have bound := Nat.mul_le_mul_right denominator (pow_digitCount_le quotient)
    exact_mod_cast bound.trans (Nat.div_mul_le_self numerator denominator)
  · have upper : denominator ≤ numerator * 10 ^ digitCount ((denominator + numerator - 1) / numerator - 1) := by
      have rounded : denominator ≤ numerator * ((denominator + numerator - 1) / numerator) := by
        have split := Nat.div_add_mod (denominator + numerator - 1) numerator
        have small := Nat.mod_lt (denominator + numerator - 1) pos
        omega
      have below := lt_pow_digitCount ((denominator + numerator - 1) / numerator - 1)
      exact rounded.trans (Nat.mul_le_mul_left _ (by omega))
    rw [zpow_neg, zpow_natCast, ← one_div, div_le_div_iff₀ (by positivity) posQ, one_mul]
    exact_mod_cast upper

/-! ## Neighbourhoods -/

namespace Neighbourhood

/-- The unit in which a neighbourhood is measured. -/
def unit (b : Neighbourhood) : ℚ := b.numerator / b.denominator

/-- A number lies in a neighbourhood. -/
def Contains (b : Neighbourhood) (v : ℚ) : Prop :=
  if b.closed then b.lower * b.unit ≤ v ∧ v ≤ b.upper * b.unit else b.lower * b.unit < v ∧ v < b.upper * b.unit

theorem unit_of (m : Nat) (e : ℤ) : (of m e).unit = 2 ^ (e - 2) := by
  have nonzero : (2 : ℚ) ≠ 0 := by norm_num
  have split : e - 2 = ((e - 2).toNat : ℤ) - ((2 - e).toNat : ℤ) := by omega
  rw [split, zpow_sub₀ nonzero, zpow_natCast, zpow_natCast]
  simp only [unit, of, Nat.pow_eq, Nat.cast_pow, Nat.cast_ofNat]

theorem unit_scale (b : Neighbourhood) (k : ℤ) : (b.scale k).unit = b.unit / 10 ^ k := by
  have nonzero : (10 : ℚ) ≠ 0 := by norm_num
  have split : k = (k.toNat : ℤ) - ((-k).toNat : ℤ) := by omega
  conv_rhs => rw [split, zpow_sub₀ nonzero, zpow_natCast, zpow_natCast]
  simp only [unit, scale, Nat.pow_eq, Nat.cast_mul, Nat.cast_pow, Nat.cast_ofNat]
  rw [div_div_eq_mul_div, div_mul_eq_mul_div, div_div]

theorem contains_scale (b : Neighbourhood) (k : ℤ) (n : Nat) :
    (b.scale k).Contains n ↔ b.Contains (n * 10 ^ k) := by
  have pos : (0 : ℚ) < 10 ^ k := zpow_pos (by norm_num) k
  simp only [Contains, unit_scale, ← mul_div_assoc, div_le_iff₀ pos, le_div_iff₀ pos, div_lt_iff₀ pos, lt_div_iff₀ pos]
  rfl

theorem holds_iff {b : Neighbourhood} (pos : 0 < b.denominator) (n : Nat) : b.holds n = true ↔ b.Contains n := by
  have posQ : (0 : ℚ) < b.denominator := Nat.cast_pos.2 pos
  simp only [holds, Contains, unit, ← mul_div_assoc, div_le_iff₀ posQ, le_div_iff₀ posQ, div_lt_iff₀ posQ,
    lt_div_iff₀ posQ]
  split <;> simp only [Bool.and_eq_true, decide_eq_true_eq] <;> norm_cast

theorem holds_of_nearest? {b : Neighbourhood} {tie : Tie} {n : Nat} (found : b.nearest? tie = some n) :
    b.holds n = true := by
  unfold nearest? at found
  dsimp only at found
  split at found
  · cases found
  · next below _ =>
    cases found
    exact below
  · next _ above =>
    cases found
    exact above
  · next below above =>
    split at found
    · cases found
      exact below
    split at found
    · cases found
      exact above
    split at found
    · cases found
      exact above
    · split at found <;> cases found
      · exact below
      · exact above

theorem nearest?_isSome {b : Neighbourhood} (tie : Tie) (near : b.holds b.floor = true ∨ b.holds (b.floor + 1) = true) :
    (b.nearest? tie).isSome = true := by
  unfold nearest?
  dsimp only
  split
  · next below above =>
    rw [below, above] at near
    simp at near
  · rfl
  · rfl
  · split
    · rfl
    split
    · rfl
    split
    · rfl
    · split <;> rfl

theorem contains_of_lt {b : Neighbourhood} {v : ℚ} (above : b.lower * b.unit < v) (below : v < b.upper * b.unit) :
    b.Contains v := by
  unfold Contains
  split
  · exact ⟨above.le, below.le⟩
  · exact ⟨above, below⟩

theorem Contains.le {b : Neighbourhood} {v : ℚ} (contains : b.Contains v) :
    b.lower * b.unit ≤ v ∧ v ≤ b.upper * b.unit := by
  unfold Contains at contains
  split at contains
  · exact contains
  · exact ⟨contains.1.le, contains.2.le⟩

theorem Contains.lt {b : Neighbourhood} {v : ℚ} (contains : b.Contains v) (opened : b.closed = false) :
    b.lower * b.unit < v ∧ v < b.upper * b.unit := by
  rwa [Contains, opened] at contains

/-- Ends that are more than a half away from the value leave room for one of its two neighbours. -/
theorem near_of_wide {b : Neighbourhood} (pos : 0 < b.denominator) (low : b.lower * b.unit + 1 / 2 < b.value * b.unit)
    (high : b.value * b.unit + 1 / 2 < b.upper * b.unit) :
    b.holds b.floor = true ∨ b.holds (b.floor + 1) = true := by
  have posQ : (0 : ℚ) < b.denominator := Nat.cast_pos.2 pos
  have below : (b.floor : ℚ) ≤ b.value * b.unit := by
    rw [unit, ← mul_div_assoc, le_div_iff₀ posQ]
    exact_mod_cast Nat.div_mul_le_self (b.value * b.numerator) b.denominator
  have above : b.value * b.unit < b.floor + 1 := by
    rw [unit, ← mul_div_assoc, div_lt_iff₀ posQ]
    exact_mod_cast Nat.lt_mul_of_div_lt (Nat.lt_succ_self b.floor) pos
  rw [holds_iff pos, holds_iff pos]
  rcases le_or_gt (b.value * b.unit - b.floor) (1 / 2) with nearer | farther
  · exact .inl (contains_of_lt (by linarith) (by linarith))
  · refine .inr (contains_of_lt ?_ ?_) <;> push_cast <;> linarith

end Neighbourhood

/-! ## Magnitudes -/

/-- A magnitude as doubles have it: 53 bits, of which the first is set but at the least exponent. -/
structure IsMagnitude (mantissa : Nat) (exponent : Int) : Prop where
  small : mantissa < 2 ^ 53
  least : -1074 ≤ exponent
  normal : mantissa < 2 ^ 52 → exponent = -1074

theorem isMagnitude_of_decode {x : Float} {negative : Bool} {m : Nat} {e : Int}
    (decoded : Binary64.decode x = .finite negative m e) : IsMagnitude m e := by
  unfold Binary64.decode Binary64.ofBits at decoded
  simp only at decoded
  split at decoded
  · split at decoded <;> cases decoded
  split at decoded
  · cases decoded
    exact ⟨by omega, by omega, by omega⟩
  · cases decoded
    refine ⟨by omega, ?_, by omega⟩
    simp only [Int.ofNat_eq_natCast]
    omega

variable {tie : Tie} {m m' : Nat} {e e' : Int} {v : ℚ}

open Neighbourhood

/-! ## The shortest decimal is near -/

theorem unit_of_pos (m : Nat) (e : Int) : 0 < (of m e).unit := by
  rw [unit_of]
  exact zpow_pos (by norm_num) _

theorem value_of (m : Nat) (e : Int) : ((of m e).value : ℚ) = 4 * m := by
  simp [of]

theorem upper_of (m : Nat) (e : Int) : ((of m e).upper : ℚ) = 4 * m + 2 := by
  simp [of]

theorem lower_of (pos : 0 < m) (e : Int) :
    ((of m e).lower : ℚ) = 4 * m - 2 ∨ m = 2 ^ 52 ∧ ((of m e).lower : ℚ) = 4 * m - 1 := by
  simp only [of]
  split
  · next power => exact .inr ⟨power.1, by rw [Nat.cast_sub (by omega)]; push_cast; ring⟩
  · exact .inl (by rw [Nat.cast_sub (by omega)]; push_cast; ring)

/-- On the grid of 17 digits a magnitude has a neighbour that rounds to it. -/
theorem nearest?_last (tie : Tie) (pos : 0 < m) (small : m < 2 ^ 53) {k : Int}
    (leading : (10 : ℚ) ^ (k + 16) ≤ (of m e).value * (of m e).unit) :
    (((of m e).scale k).nearest? tie).isSome = true := by
  have posK : (0 : ℚ) < 10 ^ k := zpow_pos (by norm_num) k
  set b := (of m e).scale k with scaled
  have large : (10 : ℚ) ^ 16 ≤ 4 * m * b.unit := by
    rw [scaled, unit_scale, ← mul_div_assoc, le_div_iff₀ posK]
    rw [zpow_add₀ (by norm_num), mul_comm] at leading
    exact_mod_cast leading
  have smallQ : (m : ℚ) ≤ 2 ^ 53 := by exact_mod_cast small.le
  have unit_pos : 0 < b.unit := by
    rw [scaled, unit_scale]
    exact div_pos (unit_of_pos m e) posK
  -- Half the distance to the next double is two units, and one below a power of two.
  have wide : (1 : ℚ) / 2 < 2 * b.unit := by
    have most := mul_le_mul_of_nonneg_right smallQ unit_pos.le
    linarith
  have value : (b.value : ℚ) = 4 * m := value_of m e
  have upper : (b.upper : ℚ) = 4 * m + 2 := upper_of m e
  have lower : (b.lower : ℚ) = 4 * m - 2 ∨ m = 2 ^ 52 ∧ (b.lower : ℚ) = 4 * m - 1 := lower_of pos e
  refine nearest?_isSome tie (near_of_wide ?_ ?_ ?_)
  · exact Nat.mul_pos (Nat.pow_pos (by decide)) (Nat.pow_pos (by decide))
  · rw [value]
    rcases lower with lower | ⟨power, lower⟩ <;> rw [lower]
    · linarith
    · rw [power] at large ⊢
      push_cast at large ⊢
      linarith
  · rw [value, upper]
    linarith

/-- The shortest decimal of a magnitude rounds to it. -/
theorem contains_shortest (tie : Tie) (pos : 0 < m) (small : m < 2 ^ 53) :
    (of m e).Contains (shortest tie m e).value := by
  set b := of m e with own
  have posN : 0 < b.numerator := Nat.pow_pos (by decide)
  have posD : 0 < b.denominator := Nat.pow_pos (by decide)
  let first := leadingExponent (b.value * b.numerator) b.denominator
  let onGrid (n : Nat) : Option Scientific :=
    ((b.scale (first - n)).nearest? tie).map fun digits => ⟨digits, first - n⟩
  have leading : (10 : ℚ) ^ first ≤ b.value * b.unit := by
    have bound := pow_leadingExponent_le (Nat.mul_pos (show 0 < b.value by simp only [own, of]; omega) posN) posD
    rwa [Nat.cast_mul, mul_div_assoc] at bound
  have last : (onGrid 16).isSome = true := by
    rw [Option.isSome_map]
    exact nearest?_last tie pos small (by simpa using leading)
  have on {n : Nat} {d : Scientific} (found : onGrid n = some d) : b.Contains d.value := by
    obtain ⟨digits, nearest, rfl⟩ := Option.map_eq_some_iff.1 found
    have held := holds_of_nearest? nearest
    rwa [holds_iff (Nat.mul_pos posD (Nat.pow_pos (by decide))), contains_scale] at held
  have chosen : ((List.range 17).findSome? onGrid).isSome = true :=
    List.findSome?_isSome_iff.2 ⟨16, by simp, last⟩
  obtain ⟨d, found⟩ := Option.isSome_iff_exists.1 chosen
  obtain ⟨n, _, grid⟩ := List.exists_of_findSome?_eq_some found
  show b.Contains (((List.range 17).findSome? onGrid).getD ⟨b.floor, 0⟩).trim.value
  rw [found, Option.getD_some, Scientific.value_trim]
  exact on grid

theorem shortest_pos (tie : Tie) (pos : 0 < m) (small : m < 2 ^ 53) : 0 < (shortest tie m e).digits := by
  have low := (contains_shortest (e := e) tie pos small).le.1
  have lower : 0 < (of m e).lower := by
    simp only [of]
    split <;> omega
  have positive : 0 < (shortest tie m e).value :=
    (mul_pos (Nat.cast_pos.2 lower) (unit_of_pos m e)).trans_le low
  by_contra none
  rw [Scientific.value, Nat.eq_zero_of_not_pos none] at positive
  simp at positive

/-! ## Neighbourhoods do not overlap -/

/-- A magnitude is before another one, and its neighbourhood ends where the other one begins or before; it ends
before where both have their ends. -/
theorem apart (mag : IsMagnitude m e) (mag' : IsMagnitude m' e') (before : e < e' ∨ e = e' ∧ m < m') :
    (of m e).upper ≤ (of m' e').lower * 2 ^ (e' - e).toNat ∧
      ((of m e).closed = true → (of m' e').closed = true →
        (of m e).upper < (of m' e').lower * 2 ^ (e' - e).toNat) := by
  have small := mag.small
  have least := mag.least
  rcases before with less | ⟨rfl, less⟩
  · have normal : 2 ^ 52 ≤ m' := by
      by_contra tiny
      have := mag'.normal (by omega)
      omega
    have double : (of m' e').lower * 2 ≤ (of m' e').lower * 2 ^ (e' - e).toNat :=
      Nat.mul_le_mul_left _ (Nat.le_self_pow (by omega) 2)
    have lower : 2 ^ 54 - 1 ≤ (of m' e').lower := by
      simp only [of]
      split <;> omega
    simp only [of, decide_eq_true_eq] at double lower ⊢
    constructor <;> omega
  · simp only [of, decide_eq_true_eq, sub_self, Int.toNat_zero, pow_zero, mul_one]
    constructor
    · split <;> omega
    · split <;> omega

/-- No number rounds to two magnitudes of which one is before the other. -/
theorem not_contains_both (mag : IsMagnitude m e) (mag' : IsMagnitude m' e') (before : e < e' ∨ e = e' ∧ m < m')
    (contains : (of m e).Contains v) (contains' : (of m' e').Contains v) : False := by
  obtain ⟨most, less⟩ := apart mag mag' before
  have unit := unit_of_pos m e
  have scaled : (of m' e').lower * (of m' e').unit =
      (((of m' e').lower * 2 ^ (e' - e).toNat : ℕ) : ℚ) * (of m e).unit := by
    rw [unit_of, unit_of, Nat.cast_mul, Nat.cast_pow, mul_assoc, Nat.cast_ofNat, ← zpow_natCast,
      ← zpow_add₀ (by norm_num)]
    congr 2
    omega
  have between := contains'.le.1.trans contains.le.2
  rw [scaled] at between
  cases closed : (of m e).closed with
  | false =>
    have strict := contains'.le.1.trans_lt (contains.lt closed).2
    rw [scaled, mul_lt_mul_iff_of_pos_right unit, Nat.cast_lt] at strict
    omega
  | true =>
    cases closed' : (of m' e').closed with
    | false =>
      have strict := (contains'.lt closed').1.trans_le contains.le.2
      rw [scaled, mul_lt_mul_iff_of_pos_right unit, Nat.cast_lt] at strict
      omega
    | true =>
      have strict := less closed closed'
      rw [mul_le_mul_iff_of_pos_right unit, Nat.cast_le] at between
      omega

/-- A number rounds to one magnitude only. -/
theorem eq_of_contains (mag : IsMagnitude m e) (mag' : IsMagnitude m' e') (contains : (of m e).Contains v)
    (contains' : (of m' e').Contains v) : m = m' ∧ e = e' := by
  rcases lt_trichotomy e e' with less | same | more
  · exact (not_contains_both mag mag' (.inl less) contains contains').elim
  · rcases lt_trichotomy m m' with less | equal | more
    · exact (not_contains_both mag mag' (.inr ⟨same, less⟩) contains contains').elim
    · exact ⟨equal, same⟩
    · exact (not_contains_both mag' mag (.inr ⟨same.symm, more⟩) contains' contains).elim
  · exact (not_contains_both mag' mag (.inl more) contains' contains).elim

/-- Magnitudes are told by their shortest decimals. -/
theorem eq_of_shortest (mag : IsMagnitude m e) (mag' : IsMagnitude m' e') (pos : 0 < m) (pos' : 0 < m')
    (same : (shortest tie m e).value = (shortest tie m' e').value) : m = m' ∧ e = e' := by
  have contains' := contains_shortest (e := e') tie pos' mag'.small
  rw [← same] at contains'
  exact eq_of_contains mag mag' (contains_shortest tie pos mag.small) contains'

end Rollup.Decimal
