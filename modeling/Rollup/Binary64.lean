/-!
# Doubles as exact numbers

A double is a NaN, an infinity, or a sign with a number `mantissa · 2 ^ exponent`.  `decode` reads
that off the bits, and the conversions below (to a whole number, by truncation, by rounding) are
exact integer arithmetic on it, so that statements about them need no rounding.

`wholeInt64?` is the test behind bucket keys: which doubles are whole numbers of the 64-bit range.
`totalRank` numbers all doubles in their total order, with -0 below 0 and NaN above infinity.
-/

namespace Rollup

/-- What the bits of a double stand for. -/
inductive Binary64
  | nan
  | infinite (negative : Bool)
  | finite (negative : Bool) (mantissa : Nat) (exponent : Int)
deriving Repr, DecidableEq

namespace Binary64

/-- The number that 64 bits encode: one sign bit, eleven exponent bits, 52 fraction bits. -/
def ofBits (bits : Nat) : Binary64 :=
  let negative := decide (0x8000000000000000 ≤ bits)
  let exponent : Nat := bits / 0x10000000000000 % 0x800
  let fraction := bits % 0x10000000000000
  if exponent = 2047 then
    if fraction = 0 then .infinite negative else .nan
  else if exponent = 0 then .finite negative fraction (-1074)
  else .finite negative (0x10000000000000 + fraction) (Int.ofNat exponent - 1075)

/-- The number that a double stands for. -/
def decode (x : Float) : Binary64 := ofBits x.toBits.toNat

/-- The magnitude `mantissa · 2 ^ exponent` without its fraction. -/
def floorMagnitude (mantissa : Nat) : Int → Nat
  | .ofNat e => mantissa * Nat.pow 2 e
  | .negSucc e => mantissa / Nat.pow 2 (e + 1)

/-- Whether `mantissa · 2 ^ exponent` has no fraction. -/
def isWholeMagnitude (mantissa : Nat) : Int → Bool
  | .ofNat _ => true
  | .negSucc e => mantissa % Nat.pow 2 (e + 1) == 0

/-- The magnitude rounded to a whole number, a half upwards. -/
def roundMagnitude (mantissa : Nat) : Int → Nat
  | .ofNat e => mantissa * Nat.pow 2 e
  | .negSucc e => (mantissa + Nat.pow 2 e) / Nat.pow 2 (e + 1)

/-- A magnitude with its sign. -/
def signed (negative : Bool) (magnitude : Nat) : Int :=
  if negative then -(magnitude : Int) else magnitude

/-! ## Whole numbers -/

/-- The whole number that this is, if it is one. -/
def whole? : Binary64 → Option Int
  | .finite negative m e =>
    if isWholeMagnitude m e then some (signed negative (floorMagnitude m e)) else none
  | _ => none

/-- The nearest number of the signed 64-bit range. -/
def clampInt64 (n : Int) : Int64 :=
  if n < Int64.minValue.toInt then Int64.minValue
  else if Int64.maxValue.toInt < n then Int64.maxValue
  else Int64.ofInt n

/-- Cuts the fraction off; there is no such number for NaN and the infinities. -/
def truncate? : Binary64 → Option Int
  | .finite negative m e => some (signed negative (floorMagnitude m e))
  | _ => none

/-- Rounds to the nearest 64-bit integer, a half away from zero.  What lies beyond the range goes to
its end, and NaN to zero. -/
def roundInt64 : Binary64 → Int64
  | .nan => 0
  | .infinite negative => if negative then Int64.minValue else Int64.maxValue
  | .finite negative m e => clampInt64 (signed negative (roundMagnitude m e))

end Binary64

/-! ## Doubles -/

/-- The whole number that `x` is, if its magnitude is below `2 ^ 63`. -/
def wholeInt64? (x : Float) : Option Int64 :=
  match (Binary64.decode x).whole? with
  | some n => if n.natAbs < 0x8000000000000000 then some (Int64.ofInt n) else none
  | none => none

/-- Cuts the fraction off a finite double, clamping to the 64-bit range. -/
def truncateInt64? (x : Float) : Option Int64 :=
  (Binary64.decode x).truncate?.map Binary64.clampInt64

/-- Rounds a double to the nearest 64-bit integer, a half away from zero. -/
def roundToInt64 (x : Float) : Int64 := (Binary64.decode x).roundInt64

/-- The double nearest to an integer, the even one of two equally near. -/
def nearestFloat (n : Int) : Float := Float.ofInt n

/-- The place of a double in the total order of all doubles. -/
def totalRank (x : Float) : Int :=
  let bits := x.toBits.toNat
  if bits < 0x8000000000000000 then bits else 0x7fffffffffffffff - bits

theorem toBits_injective {x y : Float} (h : x.toBits = y.toBits) : x = y := by
  obtain ⟨⟨a, ha⟩⟩ := x
  obtain ⟨⟨b, hb⟩⟩ := y
  have h : a = b := h
  subst h
  rfl

/-- Different doubles have different places. -/
theorem totalRank_injective {x y : Float} (h : totalRank x = totalRank y) : x = y := by
  have hx := x.toBits.toNat_lt
  have hy := y.toBits.toNat_lt
  refine toBits_injective (UInt64.toNat_inj.1 ?_)
  simp only [totalRank] at h
  split at h <;> split at h <;> omega

end Rollup
