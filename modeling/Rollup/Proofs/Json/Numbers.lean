import Mathlib.Algebra.Order.Field.Power
import Mathlib.Data.List.Induction
import Mathlib.Data.Rat.Cast.Order
import Mathlib.Tactic.Ring
import Rollup.Json.Token

/-!
# Reading numbers back

A number that was written as whole digits, a fraction and an exponent reads back as these, whatever stands behind
it that cannot belong to a number (`Token.scan?_chars`).  A whole number reads back as a literal that has
neither a fraction nor an exponent (`Literal.ofInt`).
-/

namespace Rollup.Decimal

/-! ## Digits -/

theorem natOfDigits_eq (digits : List Char) : natOfDigits digits = Nat.ofDigitChars 10 digits 0 := rfl

@[simp]
theorem natOfDigits_toDigits (n : Nat) : natOfDigits (Nat.toDigits 10 n) = n := by
  rw [natOfDigits_eq, Nat.ofDigitChars_ten_toDigits]

theorem natOfDigits_append (front back : List Char) :
    natOfDigits (front ++ back) = natOfDigits front * 10 ^ back.length + natOfDigits back := by
  simp only [natOfDigits_eq]
  rw [Nat.ofDigitChars_append, Nat.ofDigitChars_eq_ofDigitChars_zero, Nat.mul_comm]

@[simp]
theorem natOfDigits_zeros (n : Nat) : natOfDigits (List.replicate n '0') = 0 := by
  rw [natOfDigits_eq, Nat.ofDigitChars_replicate_zero, Nat.mul_zero]

/-- Only digits. -/
def AllDigits (cs : List Char) : Prop := ∀ c ∈ cs, c.isDigit = true

theorem digitValue_lt {c : Char} (digit : c.isDigit = true) : digitValue c < 10 := by
  simp only [Char.isDigit, Bool.and_eq_true, decide_eq_true_eq, UInt32.le_iff_toNat_le] at digit
  have most : c.toNat ≤ 57 := digit.2
  have zero : '0'.toNat = 48 := rfl
  rw [digitValue, zero]
  omega

theorem natOfDigits_lt {digits : List Char} (all : AllDigits digits) : natOfDigits digits < 10 ^ digits.length := by
  induction digits using List.reverseRecOn with
  | nil => exact Nat.one_pos
  | append_singleton front c ih =>
    have before := ih fun d mem => all d (List.mem_append_left [c] mem)
    have last := digitValue_lt (all c (List.mem_append_right front List.mem_cons_self))
    have single : natOfDigits [c] = digitValue c := Nat.zero_add _
    rw [natOfDigits_append, List.length_append, List.length_singleton, Nat.pow_succ, single]
    omega

theorem allDigits_toDigits (n : Nat) : AllDigits (Nat.toDigits 10 n) :=
  fun _ mem => Nat.isDigit_of_mem_toDigits (by decide) (by decide) mem

theorem allDigits_zeros (n : Nat) : AllDigits (List.replicate n '0') := fun c mem => by
  rw [(List.mem_replicate.1 mem).2]
  rfl

theorem AllDigits.append {front back : List Char} (all : AllDigits front) (all' : AllDigits back) :
    AllDigits (front ++ back) := fun c mem => (List.mem_append.1 mem).elim (all c) (all' c)

/-- The digits of a whole number: a leading zero stands alone. -/
structure IsNumeral (cs : List Char) : Prop where
  digits : AllDigits cs
  nonempty : cs ≠ []
  leading : cs = ['0'] ∨ cs.head? ≠ some '0'

theorem isNumeral_zero : IsNumeral ['0'] := ⟨by simp [AllDigits], by simp, .inl rfl⟩

theorem head?_toDigits {n : Nat} (pos : 0 < n) : (Nat.toDigits 10 n).head? ≠ some '0' := by
  induction n using Nat.strong_induction_on with
  | _ n ih =>
    rw [Nat.toDigits_eq_if (by decide)]
    split
    · next single =>
      have letters : ∀ d < 10, 0 < d → d.digitChar ≠ '0' := by decide
      simpa using letters n single pos
    · rw [List.head?_append, Option.or_of_isSome (by simp)]
      exact ih (n / 10) (by omega) (by omega)

theorem isNumeral_of_leading {cs : List Char} (digits : AllDigits cs) (nonempty : cs ≠ []) (leading : cs.head? ≠ some '0') :
    IsNumeral cs := ⟨digits, nonempty, .inr leading⟩

theorem isNumeral_toDigits (n : Nat) : IsNumeral (Nat.toDigits 10 n) := by
  rcases Nat.eq_zero_or_pos n with rfl | pos
  · exact isNumeral_zero
  · exact isNumeral_of_leading (allDigits_toDigits n) Nat.toDigits_ne_nil (head?_toDigits pos)

/-! ## Literals -/

namespace Literal

/-- The characters of a fraction. -/
def fractionChars : Option (List Char) → List Char
  | none => []
  | some digits => '.' :: digits

/-- The characters of an exponent. -/
def exponentChars : Option Int → List Char
  | none => []
  | some n => 'e' :: Json.intChars n

/-- The characters of a literal behind its sign. -/
def magnitudeChars (l : Literal) : List Char := l.whole ++ fractionChars l.fraction ++ exponentChars l.exponent

/-- The characters of a literal, with no sign that it can do without. -/
def chars (l : Literal) : List Char := (if l.negative then ['-'] else []) ++ l.magnitudeChars

/-- The digits are digits, and there are some where there must be. -/
structure WellFormed (l : Literal) : Prop where
  whole : IsNumeral l.whole
  fraction : ∀ digits ∈ l.fraction, AllDigits digits ∧ digits ≠ []

/-- The number that a literal denotes, without its sign. -/
def magnitude (l : Literal) : ℚ :=
  natOfDigits (l.whole ++ l.fraction.getD []) * 10 ^ (l.exponent.getD 0 - (l.fraction.getD []).length)

/-- The literal of a whole number. -/
def ofInt (n : Int) : Literal := ⟨decide (n < 0), Nat.toDigits 10 n.natAbs, none, none⟩

theorem wellFormed_ofInt (n : Int) : (ofInt n).WellFormed := ⟨isNumeral_toDigits _, by simp [ofInt]⟩

theorem chars_ofInt (n : Int) : (ofInt n).chars = Json.intChars n := by
  simp only [chars, magnitudeChars, ofInt, fractionChars, exponentChars, List.append_nil, Json.intChars, decide_eq_true_eq]
  split <;> rfl

theorem signed_natAbs (n : Int) : Binary64.signed (decide (n < 0)) n.natAbs = n := by
  simp only [Binary64.signed, decide_eq_true_eq]
  split <;> omega

theorem toInt_ofInt (n : Int) : (ofInt n).toInt = n := by
  rw [toInt, ofInt, natOfDigits_toDigits, signed_natAbs]

end Literal

end Rollup.Decimal

namespace Rollup.Json.Token

open Decimal Decimal.Literal

variable {r : List Char}

/-! ## Reading digits -/

theorem scanDigits_append {digits : List Char} (all : AllDigits digits) (ends : ∀ c ∈ r.head?, c.isDigit = false) :
    scanDigits (digits ++ r) = (digits, r) := by
  have stops : r.takeWhile Char.isDigit = [] ∧ r.dropWhile Char.isDigit = r := by
    cases r with
    | nil => exact ⟨rfl, rfl⟩
    | cons c rest => simp [ends c rfl]
  rw [scanDigits, List.takeWhile_append_of_pos all, List.dropWhile_append_of_pos all, stops.1, stops.2, List.append_nil]

theorem scanDigits1?_append {digits : List Char} (all : AllDigits digits) (nonempty : digits ≠ [])
    (ends : ∀ c ∈ r.head?, c.isDigit = false) : scanDigits1? (digits ++ r) = some (digits, r) := by
  rw [scanDigits1?, scanDigits_append all ends, if_neg nonempty]

theorem scanWhole?_append {whole : List Char} (numeral : IsNumeral whole) (ends : ∀ c ∈ r.head?, c.isDigit = false) :
    scanWhole? (whole ++ r) = some (whole, r) := by
  rcases numeral.leading with rfl | leading
  · rfl
  · cases whole with
    | nil => exact (numeral.nonempty rfl).elim
    | cons c rest =>
      have other : c ≠ '0' := fun zero => leading (congrArg some zero)
      rw [List.cons_append, scanWhole?, if_neg other]
      exact scanDigits1?_append numeral.digits numeral.nonempty ends

/-! ## Reading numbers -/

/-- What stands behind a number does not go on with it. -/
def EndsNumber (r : List Char) : Prop := ∀ c ∈ r.head?, c.isDigit = false ∧ c ≠ '.' ∧ c ≠ 'e' ∧ c ≠ 'E'

theorem scanSign_intChars (n : Int) (r : List Char) :
    scanSign (intChars n ++ r) = (decide (n < 0), Nat.toDigits 10 n.natAbs ++ r) := by
  rw [intChars]
  split
  · next negative =>
    rw [decide_eq_true negative]
    rfl
  · next positive =>
    rw [decide_eq_false positive]
    have digits := allDigits_toDigits n.natAbs
    cases own : Nat.toDigits 10 n.natAbs with
    | nil => exact (Nat.toDigits_ne_nil own).elim
    | cons c rest =>
      have digit : c.isDigit = true := digits c (by rw [own]; exact List.mem_cons_self)
      rw [List.cons_append, scanSign, if_neg, if_neg]
      · rintro rfl
        cases digit
      · rintro rfl
        cases digit

theorem scanExponent?_append (exponent : Option Int) (ends : EndsNumber r) :
    scanExponent? (exponentChars exponent ++ r) = some (exponent, r) := by
  cases exponent with
  | none =>
    cases r with
    | nil => rfl
    | cons c rest =>
      have stop := ends c rfl
      exact if_neg (not_or.2 ⟨stop.2.2.1, stop.2.2.2⟩)
  | some n =>
    rw [exponentChars, List.cons_append, scanExponent?, if_pos (.inl rfl), scanSign_intChars,
      scanDigits1?_append (allDigits_toDigits _) Nat.toDigits_ne_nil fun c mem => (ends c mem).1]
    simp only [Option.map_some, natOfDigits_toDigits, signed_natAbs]

theorem scanFraction?_append {fraction : Option (List Char)} (digits : ∀ ds ∈ fraction, AllDigits ds ∧ ds ≠ [])
    (ends : ∀ c ∈ r.head?, c.isDigit = false ∧ c ≠ '.') :
    scanFraction? (fractionChars fraction ++ r) = some (fraction, r) := by
  cases fraction with
  | none =>
    cases r with
    | nil => rfl
    | cons c rest => exact if_neg (ends c rfl).2
  | some ds =>
    rw [fractionChars, List.cons_append, scanFraction?, if_pos rfl,
      scanDigits1?_append (digits ds rfl).1 (digits ds rfl).2 fun c mem => (ends c mem).1]
    rfl

theorem ends_exponentChars (exponent : Option Int) (ends : EndsNumber r) :
    ∀ c ∈ (exponentChars exponent ++ r).head?, c.isDigit = false ∧ c ≠ '.' := by
  cases exponent with
  | none => exact fun c mem => ⟨(ends c mem).1, (ends c mem).2.1⟩
  | some n => simp [exponentChars]

theorem ends_fractionChars (fraction : Option (List Char)) (ends : ∀ c ∈ r.head?, c.isDigit = false ∧ c ≠ '.') :
    ∀ c ∈ (fractionChars fraction ++ r).head?, c.isDigit = false := by
  cases fraction with
  | none => exact fun c mem => (ends c mem).1
  | some ds => simp [fractionChars]

/-- An exponent may be written with a plus sign. -/
theorem scanExponent?_plus (n : Nat) (ends : EndsNumber r) :
    scanExponent? ('e' :: '+' :: (Nat.toDigits 10 n ++ r)) = some (some (n : Int), r) := by
  have sign : scanSign ('+' :: (Nat.toDigits 10 n ++ r)) = (false, Nat.toDigits 10 n ++ r) := rfl
  rw [scanExponent?, if_pos (.inl rfl), sign,
    scanDigits1?_append (allDigits_toDigits _) Nat.toDigits_ne_nil fun c mem => (ends c mem).1]
  simp [Binary64.signed]

/-- The digits of a number are read in front of its exponent, however that is written. -/
theorem scanMagnitude?_append {l : Literal} (wellFormed : l.WellFormed) {text : List Char}
    (read : scanExponent? text = some (l.exponent, r)) (ends : ∀ c ∈ text.head?, c.isDigit = false ∧ c ≠ '.') :
    scanMagnitude? l.negative (l.whole ++ fractionChars l.fraction ++ text) = some (l, r) := by
  rw [List.append_assoc, scanMagnitude?, scanWhole?_append wellFormed.whole (ends_fractionChars l.fraction ends)]
  simp only [Option.bind_eq_bind, Option.bind_some, scanFraction?_append wellFormed.fraction ends, read]
  rfl

theorem scanMagnitude?_chars {l : Literal} (wellFormed : l.WellFormed) (ends : EndsNumber r) :
    scanMagnitude? l.negative (l.magnitudeChars ++ r) = some (l, r) := by
  rw [magnitudeChars, List.append_assoc]
  exact scanMagnitude?_append wellFormed (scanExponent?_append l.exponent ends) (ends_exponentChars l.exponent ends)

/-- The first character of a numeral is a digit. -/
theorem head_magnitudeChars {l : Literal} (wellFormed : l.WellFormed) :
    ∃ c rest, l.magnitudeChars = c :: rest ∧ c.isDigit = true := by
  have whole := wellFormed.whole
  rw [magnitudeChars, List.append_assoc]
  cases own : l.whole with
  | nil => exact (whole.nonempty own).elim
  | cons c rest => exact ⟨c, _, rfl, whole.digits c (by rw [own]; exact List.mem_cons_self)⟩

/-- A number that starts with a digit is the next token, behind its sign. -/
theorem scan?_of_magnitude {l : Literal} {text : List Char} (first : ∃ c rest, text = c :: rest ∧ c.isDigit = true)
    (read : scanMagnitude? l.negative text = some (l, r)) :
    scan? ((if l.negative then ['-'] else []) ++ text) = some (.number l, r) := by
  obtain ⟨c, rest, rfl, digit⟩ := first
  have number : scanNumber? ((if l.negative then ['-'] else []) ++ c :: rest) = some (l, r) := by
    cases sign : l.negative with
    | true =>
      rw [sign] at read
      exact read
    | false =>
      rw [sign] at read
      have other : c ≠ '-' := by
        rintro rfl
        cases digit
      simp only [Bool.false_eq_true, if_false, List.nil_append]
      rw [scanNumber?, if_neg other]
      exact read
  have begins : ∃ d rest', (if l.negative then ['-'] else []) ++ c :: rest = d :: rest' ∧ (d = '-' ∨ d.isDigit = true) := by
    cases l.negative
    · exact ⟨c, rest, rfl, .inr digit⟩
    · exact ⟨'-', c :: rest, rfl, .inl rfl⟩
  obtain ⟨d, rest', own, numeric⟩ := begins
  rw [own] at number ⊢
  rw [scan?.eq_def]
  split
  case h_11 => rw [number]; rfl
  all_goals
    next start =>
    cases start
    exact absurd numeric (by decide)

/-- The characters of a number are the next token. -/
theorem scan?_chars {l : Literal} (wellFormed : l.WellFormed) (ends : EndsNumber r) :
    scan? (l.chars ++ r) = some (.number l, r) := by
  obtain ⟨c, rest, own, digit⟩ := head_magnitudeChars wellFormed
  have read := scanMagnitude?_chars wellFormed ends
  rw [Literal.chars, List.append_assoc]
  exact scan?_of_magnitude ⟨c, rest ++ r, by rw [own]; rfl, digit⟩ read

end Rollup.Json.Token
