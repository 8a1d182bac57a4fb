import Rollup.Proofs.Binary64.Canonical
import Rollup.Proofs.Decimal.Shortest
import Rollup.Proofs.Json.Numbers

/-!
# A written double tells the double

A layout that ends whole numbers in a point and a zero writes every finite double as a number with a fraction or
an exponent (`Layout.exists_literal`): the digits that are laid out are those of the shortest decimal, wherever the
point goes.  With the sign they tell the double (`Layout.eq_of_spelled`).
-/

namespace Rollup.Decimal

open Json.Token

/-- A literal that is no whole number by its form, with a text that reads as it behind the sign, and its number. -/
structure Literal.Spells (lit : Literal) (text : List Char) (v : ℚ) : Prop where
  decimal : lit.isPlain = false
  begins : ∃ c rest, text = c :: rest ∧ c.isDigit = true
  reads : ∀ r, EndsNumber r → scanMagnitude? lit.negative (text ++ r) = some (lit, r)
  number : lit.magnitude = v

/-- With its sign the text is the next token. -/
theorem Literal.Spells.scan? {lit : Literal} {text r : List Char} {v : ℚ} (spells : lit.Spells text v) (ends : EndsNumber r) :
    scan? ((if lit.negative then ['-'] else []) ++ text ++ r) = some (.number lit, r) := by
  obtain ⟨c, rest, own, digit⟩ := spells.begins
  rw [List.append_assoc]
  exact scan?_of_magnitude ⟨c, rest ++ r, by rw [own]; rfl, digit⟩ (spells.reads r ends)

theorem Literal.WellFormed.spells {lit : Literal} (wellFormed : lit.WellFormed) (decimal : lit.isPlain = false) :
    lit.Spells lit.magnitudeChars lit.magnitude :=
  ⟨decimal, head_magnitudeChars wellFormed, fun _ ends => scanMagnitude?_chars wellFormed ends, rfl⟩

namespace Layout

open Literal

variable {l : Layout} {digits : List Char}

/-- Digits with a point spell the number of all the digits, moved by the number of those behind the point. -/
theorem spells_pointed (negative : Bool) {whole fraction : List Char} (numeral : IsNumeral whole)
    (all : AllDigits fraction) (nonempty : fraction ≠ []) :
    (⟨negative, whole, some fraction, none⟩ : Literal).Spells (whole ++ '.' :: fraction)
      (natOfDigits (whole ++ fraction) * 10 ^ (-(fraction.length : Int))) := by
  have wellFormed : (⟨negative, whole, some fraction, none⟩ : Literal).WellFormed :=
    ⟨numeral, fun _ own => Option.some.inj own ▸ ⟨all, nonempty⟩⟩
  have spells := wellFormed.spells rfl
  simpa [magnitudeChars, fractionChars, exponentChars, magnitude] using spells

/-- Positional digits spell the number of the digits, moved by the place of the first one. -/
theorem exists_positional (marks : l.marksWhole = true) (negative : Bool) (all : AllDigits digits) (nonempty : digits ≠ [])
    (leading : digits.head? ≠ some '0') (first : Int) :
    ∃ lit : Literal, lit.negative = negative ∧
      lit.Spells (l.positionalText digits first) (natOfDigits digits * 10 ^ (first - digits.length + 1)) := by
  have length := List.length_pos_iff.2 nonempty
  have zero : natOfDigits ['0'] = 0 := rfl
  rw [positionalText, marks]
  -- The point stands before all digits, behind them or among them.
  split
  · have value : natOfDigits digits * 10 ^ (first - digits.length + 1) =
        (natOfDigits (['0'] ++ (List.replicate (-first - 1).toNat '0' ++ digits)) *
          10 ^ (-((List.replicate (-first - 1).toNat '0' ++ digits).length : Int)) : ℚ) := by
      simp only [natOfDigits_append, zero, natOfDigits_zeros, Nat.zero_mul, Nat.zero_add, List.length_append,
        List.length_replicate]
      congr 2
      omega
    rw [value]
    exact ⟨_, rfl, spells_pointed negative isNumeral_zero ((allDigits_zeros _).append all) (by simp [nonempty])⟩
  dsimp only
  split
  · have value : natOfDigits digits * 10 ^ (first - digits.length + 1) =
        (natOfDigits (digits ++ List.replicate (first.toNat + 1 - digits.length) '0' ++ ['0']) *
          10 ^ (-((['0'] : List Char).length : Int)) : ℚ) := by
      simp only [natOfDigits_append, zero, natOfDigits_zeros, Nat.add_zero, List.length_replicate,
        List.length_singleton, Nat.cast_mul, Nat.cast_pow, Nat.cast_ofNat, mul_assoc]
      rw [← zpow_natCast, ← zpow_natCast, ← zpow_add₀ (by norm_num), ← zpow_add₀ (by norm_num)]
      congr 2
      omega
    rw [value]
    refine ⟨_, rfl, spells_pointed negative ?_ isNumeral_zero.digits isNumeral_zero.nonempty⟩
    refine isNumeral_of_leading (all.append (allDigits_zeros _)) (by simp [nonempty]) ?_
    rwa [List.head?_append, Option.or_of_isSome (by simpa using nonempty)]
  · next long =>
    have value : natOfDigits digits * 10 ^ (first - digits.length + 1) =
        (natOfDigits (digits.take (first.toNat + 1) ++ digits.drop (first.toNat + 1)) *
          10 ^ (-((digits.drop (first.toNat + 1)).length : Int)) : ℚ) := by
      rw [List.take_append_drop, List.length_drop]
      congr 2
      omega
    rw [value]
    refine ⟨_, rfl, spells_pointed negative ?_ (fun c mem => all c (List.mem_of_mem_drop mem)) (by simpa using long)⟩
    refine isNumeral_of_leading (fun c mem => all c (List.mem_of_mem_take mem)) (by simp [nonempty]) ?_
    rwa [List.head?_take, if_neg (by omega)]

theorem scanExponent?_text (plus : l.plus = [] ∨ l.plus = ['+']) (exponent : Int) {r : List Char} (ends : EndsNumber r) :
    scanExponent? ('e' :: l.exponentText exponent ++ r) = some (some exponent, r) := by
  have plain := scanExponent?_append (some exponent) ends
  rw [exponentText]
  rw [exponentChars, Json.intChars] at plain
  split
  · next negative =>
    rw [if_pos negative] at plain
    exact plain
  · next positive =>
    obtain plus | plus := plus
    · rw [if_neg positive] at plain
      rw [plus]
      exact plain
    · have signed := scanExponent?_plus exponent.natAbs ends
      rw [show ((exponent.natAbs : Nat) : Int) = exponent by omega] at signed
      rw [plus]
      exact signed

/-- Digits behind the first one and an exponent spell the same number. -/
theorem exists_scientific (plus : l.plus = [] ∨ l.plus = ['+']) (negative : Bool) (all : AllDigits digits)
    (nonempty : digits ≠ []) (leading : digits.head? ≠ some '0') (first : Int) :
    ∃ lit : Literal, lit.negative = negative ∧
      lit.Spells (l.scientificText digits first) (natOfDigits digits * 10 ^ (first - digits.length + 1)) := by
  have length := List.length_pos_iff.2 nonempty
  have numeral : IsNumeral (digits.take 1) := by
    refine isNumeral_of_leading (fun c mem => all c (List.mem_of_mem_take mem)) (by simp [nonempty]) ?_
    rwa [List.head?_take, if_neg (by omega)]
  obtain ⟨fraction, wellFormed, chars, value⟩ : ∃ fraction : Option (List Char),
      (⟨negative, digits.take 1, fraction, some first⟩ : Literal).WellFormed ∧
        fractionChars fraction = (if digits.length ≤ 1 then [] else '.' :: digits.drop 1) ∧
          (⟨negative, digits.take 1, fraction, some first⟩ : Literal).magnitude =
            natOfDigits digits * 10 ^ (first - digits.length + 1) := by
    by_cases single : digits.length ≤ 1
    · have rest : digits.take 1 = digits := List.take_of_length_le single
      refine ⟨none, ⟨numeral, by simp⟩, by rw [if_pos single]; rfl, ?_⟩
      simp only [magnitude, Option.getD_some, Option.getD_none, List.append_nil, rest, List.length_nil]
      congr 2
      omega
    · refine ⟨some (digits.drop 1), ⟨numeral, ?_⟩, by rw [if_neg single]; rfl, ?_⟩
      · rintro _ ⟨⟩
        exact ⟨fun c mem => all c (List.mem_of_mem_drop mem), List.drop_eq_nil_iff.not.2 single⟩
      · simp only [magnitude, Option.getD_some, List.take_append_drop, List.length_drop]
        congr 2
        omega
  refine ⟨_, rfl, by simp [isPlain], ?_, fun r ends => ?_, value⟩
  · obtain ⟨c, rest, own⟩ := List.exists_cons_of_ne_nil nonempty
    exact ⟨c, _, by rw [scientificText, own]; rfl, all c (by rw [own]; exact List.mem_cons_self)⟩
  · rw [scientificText, ← chars, List.append_assoc]
    exact scanMagnitude?_append wellFormed (scanExponent?_text plus first ends) (by simp)

/-- The number that the text of a magnitude spells. -/
def spelled (l : Layout) (m : Nat) (e : Int) : ℚ := if m = 0 then 0 else (shortest l.tie m e).value

/-- Every magnitude is written as a number with a fraction or an exponent. -/
theorem exists_literal (marks : l.marksWhole = true) (plus : l.plus = [] ∨ l.plus = ['+']) (negative : Bool) {m : Nat}
    {e : Int} (small : m < 2 ^ 53) :
    ∃ lit : Literal, lit.negative = negative ∧ lit.Spells (l.magnitudeText m e) (l.spelled m e) := by
  rw [magnitudeText, spelled]
  split
  · have written : l.positionalText ['0'] 0 = ['0'] ++ '.' :: ['0'] := by simp [positionalText, marks]
    have value : (0 : ℚ) = natOfDigits (['0'] ++ ['0']) * 10 ^ (-((['0'] : List Char).length : Int)) :=
      (zero_mul _).symm
    rw [written, value]
    exact ⟨_, rfl, spells_pointed negative isNumeral_zero isNumeral_zero.digits isNumeral_zero.nonempty⟩
  · next nonzero =>
    set d := shortest l.tie m e with own
    have pos : 0 < d.digits := shortest_pos l.tie (Nat.pos_of_ne_zero nonzero) small
    have place : d.exponent + (Nat.toDigits 10 d.digits).length - 1 - (Nat.toDigits 10 d.digits).length + 1 =
        d.exponent := by omega
    have all := allDigits_toDigits d.digits
    have value : d.value = natOfDigits (Nat.toDigits 10 d.digits) * 10 ^ (d.exponent +
        (Nat.toDigits 10 d.digits).length - 1 - (Nat.toDigits 10 d.digits).length + 1) := by
      rw [place, natOfDigits_toDigits, Scientific.value]
    rw [value]
    dsimp only
    split
    · exact exists_positional marks negative all Nat.toDigits_ne_nil (head?_toDigits pos) _
    · exact exists_scientific plus negative all Nat.toDigits_ne_nil (head?_toDigits pos) _

/-- Magnitudes are told by the numbers that their texts spell. -/
theorem eq_of_spelled {m m' : Nat} {e e' : Int} (mag : IsMagnitude m e) (mag' : IsMagnitude m' e')
    (same : l.spelled m e = l.spelled m' e') : m = m' ∧ e = e' := by
  have positive {n : Nat} {f : Int} (mag : IsMagnitude n f) (nonzero : n ≠ 0) : (shortest l.tie n f).value ≠ 0 := by
    have pos := shortest_pos (e := f) l.tie (Nat.pos_of_ne_zero nonzero) mag.small
    exact mul_ne_zero (Nat.cast_ne_zero.2 pos.ne') (zpow_ne_zero _ (by norm_num))
  unfold spelled at same
  split at same <;> split at same
  · next zero zero' =>
    subst zero zero'
    exact ⟨rfl, (mag.normal (by norm_num)).trans (mag'.normal (by norm_num)).symm⟩
  · next _ nonzero => exact (positive mag' nonzero same.symm).elim
  · next nonzero _ => exact (positive mag nonzero same).elim
  · next nonzero nonzero' =>
    exact eq_of_shortest mag mag' (Nat.pos_of_ne_zero nonzero) (Nat.pos_of_ne_zero nonzero') same

end Layout

end Rollup.Decimal
