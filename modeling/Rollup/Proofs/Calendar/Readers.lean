import Mathlib.Data.List.TakeWhile
import Mathlib.Tactic.NormNum
import Mathlib.Tactic.Positivity
import Rollup.Calendar.Iso8601
import Rollup.Proofs.Json.Numbers

/-!
# What the readers of an instant take

A reader takes off the front of a text what a grammar describes, and makes of it what the grammar says (`Reads`).
The grammars of dates, times and offsets have one text in front of any other, so that their readers need not look at
what stands behind it.  A fraction goes on as long as there are digits, and is read where none follow.
-/

namespace Rollup.Calendar

theorem Date.ofParts?_eq_some_iff {year : Int} {month day : Nat} {d : Date} :
    Date.ofParts? year month day = some d ↔ d.year = year ∧ d.month = month ∧ d.day = day := by
  rw [Date.ofParts?]
  constructor
  · intro made
    split at made
    · split at made
      · obtain rfl := Option.some.inj made
        exact ⟨rfl, rfl, rfl⟩
      · cases made
    · cases made
  · rintro ⟨rfl, rfl, rfl⟩
    rw [dif_pos d.month_range, dif_pos d.day_range]

namespace Iso8601

open Decimal

variable {α β : Type} {cs rest : List Char}

/-! ## Readers and grammars -/

/-- A reader takes what a grammar says off the front of a text, and makes of it what the grammar says. -/
structure Reads (reader : Reader α) (grammar : List Char → α → Prop) : Prop where
  complete : ∀ {front a} rest, grammar front a → reader (front ++ rest) = some (a, rest)
  sound : ∀ {cs a rest}, reader cs = some (a, rest) → ∃ front, cs = front ++ rest ∧ grammar front a

theorem Reads.whole {reader : Reader α} {grammar : List Char → α → Prop} {a : α} (reads : Reads reader grammar) :
    reader cs = some (a, []) ↔ grammar cs a := by
  constructor
  · intro read
    obtain ⟨front, rfl, text⟩ := reads.sound read
    rwa [List.append_nil]
  · intro text
    have read := reads.complete [] text
    rwa [List.append_nil] at read

/-- So many digits, which stand for a number. -/
structure Numeral (count : Nat) (cs : List Char) (n : Nat) : Prop where
  length : cs.length = count
  digits : AllDigits cs
  value : natOfDigits cs = n

theorem reads_digits (count : Nat) : Reads (digits count) (Numeral count) where
  complete := by
    rintro front n rest ⟨length, all, rfl⟩
    have taken : (front ++ rest).take count = front := by rw [← length, List.take_left]
    rw [digits, taken, if_pos ⟨length, List.all_eq_true.2 all⟩, ← length, List.drop_left]
  sound := by
    intro cs n rest read
    rw [digits] at read
    split at read
    · next good =>
      obtain ⟨rfl, rfl⟩ := Prod.mk.inj (Option.some.inj read)
      exact ⟨cs.take count, (List.take_append_drop count cs).symm, good.1, List.all_eq_true.1 good.2, rfl⟩
    · cases read

theorem reads_char (c : Char) : Reads (char c) fun front _ => front = [c] where
  complete := by
    rintro _ - rest rfl
    exact if_pos rfl
  sound := by
    rintro (_ | ⟨d, cs⟩) _ rest read
    · cases read
    · rw [char] at read
      split at read
      · next same =>
        obtain ⟨-, rfl⟩ := Prod.mk.inj (Option.some.inj read)
        exact ⟨[c], by rw [same]; rfl, rfl⟩
      · cases read

theorem reads_separator : Reads separator fun front _ => ∃ c : Char, c.toNat < 128 ∧ front = [c] where
  complete := by
    rintro _ - rest ⟨c, ascii, rfl⟩
    exact if_pos ascii
  sound := by
    rintro (_ | ⟨c, cs⟩) _ rest read
    · cases read
    · rw [separator] at read
      split at read
      · next ascii =>
        obtain ⟨-, rfl⟩ := Prod.mk.inj (Option.some.inj read)
        exact ⟨[c], rfl, c, ascii, rfl⟩
      · cases read

theorem Reads.separated {first : Reader α} {second : α → Reader β} {g : List Char → α → Prop}
    {g' : α → List Char → β → Prop} (reads : Reads first g) (c : Char) (reads' : ∀ a, Reads (second a) (g' a)) :
    Reads (fun cs => do
      let (a, cs) ← first cs
      let (_, cs) ← char c cs
      second a cs) fun text b => ∃ front back a, text = front ++ c :: back ∧ g front a ∧ g' a back b where
  complete := by
    rintro _ b rest ⟨front, back, a, rfl, isFirst, isSecond⟩
    have reading := reads.complete (c :: (back ++ rest)) isFirst
    simp [reading, char, (reads' a).complete rest isSecond]
  sound := by
    intro cs b rest read
    simp only [Option.bind_eq_bind, Option.bind_eq_some_iff, Prod.exists] at read
    obtain ⟨a, _, isFirst, _, _, isChar, isSecond⟩ := read
    obtain ⟨front, rfl, isFront⟩ := reads.sound isFirst
    obtain ⟨_, rfl, rfl⟩ := (reads_char c).sound isChar
    obtain ⟨back, rfl, isBack⟩ := (reads' a).sound isSecond
    exact ⟨front ++ c :: back, by simp, front, back, a, rfl, isFront, isBack⟩

theorem Reads.checked {reader : Reader α} {g : List Char → α → Prop} (reads : Reads reader g) (f : α → Option β) :
    Reads (fun cs => do
      let (a, cs) ← reader cs
      return (← f a, cs)) fun text b => ∃ a, g text a ∧ f a = some b where
  complete := by
    rintro text b rest ⟨a, isText, made⟩
    simp [reads.complete rest isText, made]
  sound := by
    intro cs b rest read
    simp only [Option.bind_eq_bind, Option.bind_eq_some_iff, Prod.exists] at read
    obtain ⟨a, _, isText, b', made, last⟩ := read
    obtain ⟨rfl, rfl⟩ := Prod.mk.inj (Option.some.inj last)
    obtain ⟨text, rfl, isText'⟩ := reads.sound isText
    exact ⟨text, rfl, a, isText', made⟩

theorem Reads.of_iff {reader : Reader α} {g g' : List Char → α → Prop} (reads : Reads reader g)
    (same : ∀ text a, g text a ↔ g' text a) : Reads reader g' :=
  (funext₂ fun text a => propext (same text a)) ▸ reads

/-! ## Dates, times and offsets -/

/-- Year, month and day. -/
def DateText (negative : Bool) (cs : List Char) (date : Date) : Prop :=
  ∃ year months days n, Numeral 4 year n ∧ Numeral 2 months date.month ∧ Numeral 2 days date.day ∧
    date.year = Binary64.signed negative n ∧ cs = year ++ '-' :: (months ++ '-' :: days)

theorem reads_date (negative : Bool) : Reads (date negative) (DateText negative) := by
  refine ((reads_digits 4).separated '-' fun year => (reads_digits 2).separated '-' fun month =>
    (reads_digits 2).checked (Date.ofParts? (Binary64.signed negative year) month)).of_iff fun text d => ?_
  constructor
  · rintro ⟨years, _, year, rfl, isYear, months, days, month, rfl, isMonth, day, isDay, made⟩
    obtain ⟨signed, rfl, rfl⟩ := Date.ofParts?_eq_some_iff.1 made
    exact ⟨years, months, days, year, isYear, isMonth, isDay, signed, rfl⟩
  · rintro ⟨years, months, days, year, isYear, isMonth, isDay, signed, rfl⟩
    have made := Date.ofParts?_eq_some_iff.2 ⟨signed, rfl, rfl⟩
    exact ⟨years, _, year, rfl, isYear, months, days, _, rfl, isMonth, _, isDay, made⟩

/-- Hour, minute and second. -/
def TimeText (cs : List Char) (time : Nat × Nat × Nat) : Prop :=
  ∃ hours minutes seconds, Numeral 2 hours time.1 ∧ Numeral 2 minutes time.2.1 ∧ Numeral 2 seconds time.2.2 ∧
    cs = hours ++ ':' :: (minutes ++ ':' :: seconds)

theorem reads_time : Reads time TimeText := by
  refine ((reads_digits 2).separated ':' fun hour => (reads_digits 2).separated ':' fun minute =>
    (reads_digits 2).checked fun second => some (hour, minute, second)).of_iff fun text t => ?_
  constructor
  · rintro ⟨hours, _, hour, rfl, isHour, minutes, seconds, minute, rfl, isMinute, second, isSecond, made⟩
    obtain rfl := Option.some.inj made
    exact ⟨hours, minutes, seconds, isHour, isMinute, isSecond, rfl⟩
  · rintro ⟨hours, minutes, seconds, isHour, isMinute, isSecond, rfl⟩
    exact ⟨hours, _, _, rfl, isHour, minutes, seconds, _, rfl, isMinute, _, isSecond, rfl⟩

/-- Hours and minutes of an offset, in seconds. -/
def MagnitudeText (cs : List Char) (magnitude : Nat) : Prop :=
  ∃ hours minutes hour minute, Numeral 2 hours hour ∧ Numeral 2 minutes minute ∧ hour ≤ 23 ∧ minute ≤ 59 ∧
    magnitude = 3600 * hour + 60 * minute ∧ cs = hours ++ ':' :: minutes

theorem reads_offsetMagnitude : Reads offsetMagnitude MagnitudeText where
  complete := by
    rintro _ _ rest ⟨hours, minutes, hour, minute, isHour, isMinute, hours_le, minutes_le, rfl, rfl⟩
    have reading := (reads_digits 2).complete (':' :: (minutes ++ rest)) isHour
    simp [offsetMagnitude, reading, char, (reads_digits 2).complete rest isMinute, hours_le, minutes_le]
  sound := by
    intro cs n rest read
    simp only [offsetMagnitude, Option.bind_eq_bind, Option.bind_eq_some_iff, Prod.exists] at read
    obtain ⟨hour, _, isHour, _, _, isColon, minute, _, isMinute, checked⟩ := read
    obtain ⟨hours, rfl, isHours⟩ := (reads_digits 2).sound isHour
    obtain ⟨_, rfl, rfl⟩ := (reads_char ':').sound isColon
    obtain ⟨minutes, rfl, isMinutes⟩ := (reads_digits 2).sound isMinute
    split at checked
    · next small =>
      obtain ⟨rfl, rfl⟩ := Prod.mk.inj (Option.some.inj checked)
      exact ⟨hours ++ ':' :: minutes, by simp, hours, minutes, hour, minute, isHours, isMinutes, small.1, small.2,
        rfl, rfl⟩
    · cases checked

/-- An offset from UTC, in seconds. -/
inductive OffsetText : List Char → Int → Prop
  | upper : OffsetText ['Z'] 0
  | lower : OffsetText ['z'] 0
  | ahead {cs : List Char} {n : Nat} (text : MagnitudeText cs n) : OffsetText ('+' :: cs) n
  | behind {cs : List Char} {n : Nat} (text : MagnitudeText cs n) : OffsetText ('-' :: cs) (-n)

theorem reads_offset : Reads offset OffsetText where
  complete := by
    intro front n rest isOffset
    cases isOffset with
    | upper => rfl
    | lower => rfl
    | ahead text => simp [offset, reads_offsetMagnitude.complete rest text]
    | behind text => simp [offset, reads_offsetMagnitude.complete rest text]
  sound := by
    intro cs n rest read
    unfold offset at read
    split at read
    · cases read
      exact ⟨['Z'], rfl, .upper⟩
    · cases read
      exact ⟨['z'], rfl, .lower⟩
    · obtain ⟨⟨magnitude, _⟩, isMagnitude, same⟩ := Option.map_eq_some_iff.1 read
      cases same
      obtain ⟨text, rfl, isText⟩ := reads_offsetMagnitude.sound isMagnitude
      exact ⟨'+' :: text, rfl, .ahead isText⟩
    · obtain ⟨⟨magnitude, _⟩, isMagnitude, same⟩ := Option.map_eq_some_iff.1 read
      cases same
      obtain ⟨text, rfl, isText⟩ := reads_offsetMagnitude.sound isMagnitude
      exact ⟨'-' :: text, rfl, .behind isText⟩
    · cases read

/-- A date whose year may have a sign. -/
inductive SignedDateText : List Char → Date → Prop
  | minus {cs : List Char} {d : Date} (text : DateText true cs d) : SignedDateText ('-' :: cs) d
  | plus {cs : List Char} {d : Date} (text : DateText false cs d) : SignedDateText ('+' :: cs) d
  | unsigned {cs : List Char} {d : Date} (text : DateText false cs d) : SignedDateText cs d

theorem DateText.head {negative : Bool} {cs : List Char} {d : Date} (text : DateText negative cs d) :
    ∃ c rest, cs = c :: rest ∧ c.isDigit = true := by
  obtain ⟨_ | ⟨c, year⟩, months, days, n, isYear, -, -, -, rfl⟩ := text
  · cases isYear.length
  · exact ⟨c, _, rfl, isYear.digits c List.mem_cons_self⟩

theorem reads_signedDate : Reads signedDate SignedDateText where
  complete := by
    intro front d rest isDate
    cases isDate with
    | minus text => exact (reads_date true).complete rest text
    | plus text => exact (reads_date false).complete rest text
    | unsigned text =>
      rw [← (reads_date false).complete rest text]
      obtain ⟨c, back, rfl, digit⟩ := text.head
      -- The digit in front is neither sign, so the last case of the reader is the one.
      rw [List.cons_append, signedDate]
      · rintro _ ⟨⟩
        cases digit
      · rintro _ ⟨⟩
        cases digit
  sound := by
    intro cs d rest read
    unfold signedDate at read
    split at read
    · obtain ⟨text, rfl, isText⟩ := (reads_date true).sound read
      exact ⟨'-' :: text, rfl, .minus isText⟩
    · obtain ⟨text, rfl, isText⟩ := (reads_date false).sound read
      exact ⟨'+' :: text, rfl, .plus isText⟩
    · obtain ⟨text, rfl, isText⟩ := (reads_date false).sound read
      exact ⟨text, rfl, .unsigned isText⟩

theorem date_of_not_digit {negative : Bool} {c : Char} (other : c.isDigit = false) (cs : List Char) :
    date negative (c :: cs) = none := by
  cases read : date negative (c :: cs) with
  | none => rfl
  | some result =>
    obtain ⟨d, back⟩ := result
    obtain ⟨front, same, text⟩ := (reads_date negative).sound read
    obtain ⟨c', _, rfl, digit⟩ := text.head
    obtain ⟨rfl, -⟩ := List.cons.inj same
    cases other.symm.trans digit

/-! ## Fractions -/

/-- A fraction of a second, which may be left out. -/
inductive FractionText : List Char → ℚ → Prop
  | none : FractionText [] 0
  | digits {ds : List Char} (all : AllDigits ds) (nonempty : ds ≠ []) :
      FractionText ('.' :: ds) (natOfDigits ds / 10 ^ ds.length)

theorem FractionText.range {cs : List Char} {q : ℚ} (text : FractionText cs q) : 0 ≤ q ∧ q < 1 := by
  cases text with
  | none => decide
  | digits all nonempty =>
    refine ⟨by positivity, ?_⟩
    rw [div_lt_one (by positivity)]
    exact_mod_cast natOfDigits_lt all

theorem nanosOfDigits_lt {ds : List Char} (all : AllDigits ds) : nanosOfDigits ds < 1000000000 := by
  have front := natOfDigits_lt fun c mem => all c (List.mem_of_mem_take (i := 9) mem)
  have short : (ds.take 9).length ≤ 9 := List.length_take_le 9 ds
  calc nanosOfDigits ds
    _ < 10 ^ (ds.take 9).length * 10 ^ (9 - (ds.take 9).length) :=
      Nat.mul_lt_mul_of_pos_right front (Nat.pow_pos (by decide))
    _ = 1000000000 := by rw [← Nat.pow_add, Nat.add_sub_cancel' short]

theorem fraction_append {most : Option Nat} {ds rest : List Char} (all : AllDigits ds) (nonempty : ds ≠ [])
    (short : ∀ n ∈ most, ds.length ≤ n) (ends : ∀ c ∈ rest.head?, c.isDigit = false) :
    fraction most ('.' :: (ds ++ rest)) = some (nanosOfDigits ds, rest) := by
  have run : (ds ++ rest).takeWhile Char.isDigit = ds := congrArg Prod.fst (Json.Token.scanDigits_append all ends)
  cases most with
  | none =>
    simp only [fraction, char, if_true, Option.bind_eq_bind, Option.bind_some, run, if_neg nonempty, List.drop_left]
  | some n =>
    have whole : ds.take n = ds := List.take_of_length_le (short n rfl)
    simp only [fraction, char, if_true, Option.bind_eq_bind, Option.bind_some, run, whole, if_neg nonempty,
      List.drop_left]

theorem requiredFraction_append {cs rest : List Char} {q : ℚ} (text : FractionText cs q)
    (ends : ∀ c ∈ rest.head?, c.isDigit = false ∧ c ≠ '.') :
    ∃ nanos < 1000000000, requiredFraction (cs ++ rest) = some (nanos, rest) := by
  cases text with
  | none =>
    refine ⟨0, by decide, ?_⟩
    rw [List.nil_append, requiredFraction]
    rintro _ rfl
    exact (ends '.' rfl).2 rfl
  | digits all nonempty =>
    have read : fraction none _ = _ := fraction_append all nonempty nofun fun c mem => (ends c mem).1
    exact ⟨_, nanosOfDigits_lt all, read⟩

theorem optionalFraction_end {cs : List Char} {q : ℚ} (text : FractionText cs q) (short : cs.length ≤ 33) :
    ∃ nanos < 1000000000, optionalFraction cs = some (nanos, []) := by
  cases text with
  | none => exact ⟨0, by decide, rfl⟩
  | @digits ds all nonempty =>
    refine ⟨_, nanosOfDigits_lt all, ?_⟩
    have read : fraction (some 32) ('.' :: (ds ++ [])) = _ := fraction_append all nonempty
      (fun n same => Option.some.inj same ▸ Nat.le_of_succ_le_succ short) nofun
    rw [List.append_nil] at read
    rw [optionalFraction, read]
    rfl

theorem fraction_sound {most : Option Nat} {cs rest : List Char} {nanos : Nat}
    (read : fraction most cs = some (nanos, rest)) :
    ∃ ds, cs = '.' :: (ds ++ rest) ∧ AllDigits ds ∧ ds ≠ [] ∧ ∀ n ∈ most, ds.length ≤ n := by
  simp only [fraction, Option.bind_eq_bind, Option.bind_eq_some_iff, Prod.exists] at read
  obtain ⟨_, back, isPoint, found⟩ := read
  obtain ⟨_, rfl, rfl⟩ := (reads_char '.').sound isPoint
  have digits : AllDigits (back.takeWhile Char.isDigit) := fun c mem => List.mem_takeWhile_imp mem
  -- A fraction is a front of the digits that follow the point, all of them or as many as are read.
  have split_off {front : List Char} (initial : front <+: back.takeWhile Char.isDigit)
      (taken : (if front = [] then none else some (nanosOfDigits front, back.drop front.length)) =
        some (nanos, rest)) :
      '.' :: back = '.' :: (front ++ rest) ∧ AllDigits front ∧ front ≠ [] := by
    split at taken
    · cases taken
    · next nonempty =>
      obtain ⟨-, rfl⟩ := Prod.mk.inj (Option.some.inj taken)
      have whole := List.prefix_iff_eq_append.1 (initial.trans (List.takeWhile_prefix _))
      exact ⟨congrArg _ whole.symm, fun c mem => digits c (initial.subset mem), nonempty⟩
  cases most with
  | none =>
    obtain ⟨same, all, nonempty⟩ := split_off (List.prefix_refl _) found
    exact ⟨_, same, all, nonempty, nofun⟩
  | some n =>
    obtain ⟨same, all, nonempty⟩ := split_off (List.take_prefix n _) found
    refine ⟨_, same, all, nonempty, ?_⟩
    rintro _ ⟨⟩
    exact List.length_take_le n _

theorem requiredFraction_sound {cs rest : List Char} {nanos : Nat} (read : requiredFraction cs = some (nanos, rest)) :
    ∃ front q, cs = front ++ rest ∧ FractionText front q := by
  unfold requiredFraction at read
  split at read
  · obtain ⟨ds, same, all, nonempty, -⟩ := fraction_sound read
    exact ⟨'.' :: ds, _, same, .digits all nonempty⟩
  · obtain ⟨-, rfl⟩ := Prod.mk.inj (Option.some.inj read)
    exact ⟨[], 0, rfl, .none⟩

theorem optionalFraction_sound {cs : List Char} {nanos : Nat} (read : optionalFraction cs = some (nanos, [])) :
    ∃ q, FractionText cs q ∧ cs.length ≤ 33 := by
  rw [optionalFraction] at read
  cases found : fraction (some 32) cs with
  | none =>
    rw [found] at read
    obtain ⟨-, rfl⟩ := Prod.mk.inj (Option.some.inj read)
    exact ⟨0, .none, by decide⟩
  | some result =>
    rw [found] at read
    obtain rfl : result = (nanos, []) := Option.some.inj read
    obtain ⟨ds, rfl, all, nonempty, short⟩ := fraction_sound found
    rw [List.append_nil]
    exact ⟨_, .digits all nonempty, Nat.succ_le_succ (short 32 rfl)⟩

end Iso8601

end Rollup.Calendar
