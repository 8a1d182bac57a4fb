import Mathlib.Data.Rat.Floor
import Mathlib.Tactic.Linarith
import Rollup.Proofs.Calendar.Days
import Rollup.Proofs.Calendar.Readers

/-!
# The day of an instant

A text that is read has one of three forms, which exclude each other, and denotes an exact instant (`Denotes`).  The
reader rounds its seconds down (`seconds_of_read?`), and whole days are cut off toward zero from there.  That is the
exact instant in days, cut off toward zero, but for the first second of each day before 1970: within it, the second
that is rounded down to is a midnight, and the day is one too low (`days_of_text`).
-/

namespace Rollup.Calendar

namespace Clock

theorem seconds_ofParts? {h m s n : Nat} (hour : h < 24) (minute : m < 60) (second : s < 60)
    (nanos : n < 1000000000) :
    ∃ clock, ofParts? h m s n = some clock ∧ clock.seconds = 3600 * h + 60 * m + s := by
  rw [ofParts?, dif_pos ⟨hour, minute, second, nanos⟩]
  exact ⟨_, rfl, rfl⟩

theorem range_of_ofParts? {h m s n : Nat} {clock : Clock} (made : ofParts? h m s n = some clock) :
    h < 24 ∧ m < 60 ∧ s < 60 := by
  rw [ofParts?] at made
  split at made
  · next range => exact ⟨range.1, range.2.1, range.2.2.1⟩
  · cases made

end Clock

namespace Iso8601

open Decimal

variable {cs : List Char} {day : Date} {h m s : Nat} {q : ℚ} {z : Int} {i : Instant}

/-! ## The three forms -/

/-- The parts of a date and a time with an offset. -/
inductive ZonedText : List Char → Date → Nat × Nat × Nat → ℚ → Int → Prop
  | parts {d t f z : List Char} {c : Char} {day : Date} {time : Nat × Nat × Nat} {q : ℚ} {offset : Int}
      (date : DateText false d day) (ascii : c.toNat < 128) (clock : TimeText t time) (fraction : FractionText f q)
      (zone : OffsetText z offset) : ZonedText (d ++ c :: (t ++ (f ++ z))) day time q offset

/-- The parts of a date and a time without an offset. -/
inductive PlainText : List Char → Date → Nat × Nat × Nat → ℚ → Prop
  | parts {d t f : List Char} {day : Date} {time : Nat × Nat × Nat} {q : ℚ} (date : SignedDateText d day)
      (clock : TimeText t time) (fraction : FractionText f q) (short : f.length ≤ 33) :
      PlainText (d ++ 'T' :: (t ++ f)) day time q

theorem OffsetText.head {cs : List Char} {offset : Int} (text : OffsetText cs offset) :
    ∀ c ∈ cs.head?, c.isDigit = false ∧ c ≠ '.' := by
  cases text <;> rintro _ ⟨⟩ <;> decide

theorem withOffset?_zoned (text : ZonedText cs day (h, m, s) q z) :
    ∃ nanos < 1000000000, withOffset? cs =
      if s = 60 then (Clock.ofParts? h m 59 999999999).bind fun clock =>
        if endsMonth day (Instant.ofLocal day clock z) then some (Instant.ofLocal day clock z) else none
      else (Clock.ofParts? h m s nanos).map fun clock => Instant.ofLocal day clock z := by
  obtain ⟨date, ascii, clock, fraction, zone⟩ := text
  obtain ⟨nanos, small, read⟩ := requiredFraction_append fraction zone.head
  refine ⟨nanos, small, ?_⟩
  simp only [withOffset?, (reads_date false).complete _ date, Option.bind_eq_bind, Option.bind_some, separator,
    if_pos ascii, reads_time.complete _ clock, read, reads_offset.whole.2 zone, ne_eq, not_true_eq_false, if_false,
    Option.map_eq_bind]
  rfl

theorem zoned_of_withOffset? (read : withOffset? cs = some i) : ∃ day h m s q z,
    ZonedText cs day (h, m, s) q z := by
  simp only [withOffset?, Option.bind_eq_bind, Option.bind_eq_some_iff, Prod.exists] at read
  obtain ⟨day, _, isDate, _, _, isSeparator, h, m, s, _, isTime, nanos, _, isFraction, z, _, isOffset, made⟩ := read
  obtain ⟨d, rfl, date⟩ := (reads_date false).sound isDate
  obtain ⟨_, rfl, c, ascii, rfl⟩ := reads_separator.sound isSeparator
  obtain ⟨t, rfl, clock⟩ := reads_time.sound isTime
  obtain ⟨f, q, rfl, fraction⟩ := requiredFraction_sound isFraction
  obtain ⟨zone, rfl, offset⟩ := reads_offset.sound isOffset
  split at made
  · cases made
  · next ends =>
    rw [not_not.1 ends, List.append_nil, List.singleton_append]
    exact ⟨day, h, m, s, q, z, .parts date ascii clock fraction offset⟩

theorem withoutOffset?_plain (text : PlainText cs day (h, m, s) q) :
    ∃ nanos < 1000000000, withoutOffset? cs =
      (Clock.ofParts? h m s nanos).map fun clock => Instant.ofLocal day clock 0 := by
  obtain ⟨date, clock, fraction, short⟩ := text
  obtain ⟨nanos, small, read⟩ := optionalFraction_end fraction short
  refine ⟨nanos, small, ?_⟩
  simp only [withoutOffset?, reads_signedDate.complete _ date, Option.bind_eq_bind, Option.bind_some, char, if_true,
    reads_time.complete _ clock, read, Option.map_eq_bind]
  rfl

theorem plain_of_withoutOffset? (read : withoutOffset? cs = some i) : ∃ day h m s q,
    PlainText cs day (h, m, s) q := by
  simp only [withoutOffset?, Option.bind_eq_bind, Option.bind_eq_some_iff, Prod.exists] at read
  obtain ⟨day, _, isDate, _, _, isChar, h, m, s, _, isTime, nanos, _, isFraction, _, -, made⟩ := read
  obtain ⟨d, rfl, date⟩ := reads_signedDate.sound isDate
  obtain ⟨_, rfl, rfl⟩ := (reads_char 'T').sound isChar
  obtain ⟨t, rfl, clock⟩ := reads_time.sound isTime
  split at made
  · next ends =>
    rw [ends] at isFraction
    obtain ⟨q, fraction, short⟩ := optionalFraction_sound isFraction
    rw [List.singleton_append]
    exact ⟨day, h, m, s, q, .parts date clock fraction short⟩
  · cases made

theorem dateOnly?_eq_some :
    dateOnly? cs = some i ↔ ∃ day, SignedDateText cs day ∧ i = Instant.ofLocal day .midnight 0 := by
  simp only [dateOnly?, Option.bind_eq_bind, Option.bind_eq_some_iff, Prod.exists]
  constructor
  · rintro ⟨day, rest, isDate, made⟩
    obtain ⟨d, rfl, date⟩ := reads_signedDate.sound isDate
    split at made
    · next ends =>
      rw [ends, List.append_nil]
      exact ⟨day, date, (Option.some.inj made).symm⟩
    · cases made
  · rintro ⟨day, date, rfl⟩
    exact ⟨day, [], reads_signedDate.whole.2 date, if_pos rfl⟩

/-! ## At most one form -/

theorem withOffset?_of_sign {c : Char} (other : c.isDigit = false) (cs : List Char) :
    withOffset? (c :: cs) = none := by
  rw [withOffset?, date_of_not_digit other]
  rfl

theorem withOffset?_of_plain (text : PlainText cs day (h, m, s) q) : withOffset? cs = none := by
  obtain ⟨date, clock, fraction, -⟩ := text
  cases date with
  | minus => exact withOffset?_of_sign rfl _
  | plus => exact withOffset?_of_sign rfl _
  | unsigned date =>
    obtain ⟨nanos, -, read⟩ := requiredFraction_append fraction (show ∀ c ∈ [].head?, _ from nofun)
    rw [List.append_nil] at read
    have ascii : 'T'.toNat < 128 := by decide
    simp only [withOffset?, (reads_date false).complete _ date, Option.bind_eq_bind, Option.bind_some, separator,
      if_pos ascii, reads_time.complete _ clock, read, offset, Option.bind_none]

theorem withOffset?_of_date (text : SignedDateText cs day) : withOffset? cs = none := by
  cases text with
  | minus => exact withOffset?_of_sign rfl _
  | plus => exact withOffset?_of_sign rfl _
  | unsigned date =>
    simp only [withOffset?, (reads_date false).whole.2 date, Option.bind_eq_bind, Option.bind_some, separator,
      Option.bind_none]

theorem withoutOffset?_of_date (text : SignedDateText cs day) : withoutOffset? cs = none := by
  simp only [withoutOffset?, reads_signedDate.whole.2 text, Option.bind_eq_bind, Option.bind_some, char,
    Option.bind_none]

/-- A second 60 is read with an offset or not at all. -/
theorem withoutOffset?_of_leap (text : ZonedText cs day (h, m, 60) q z) : withoutOffset? cs = none := by
  obtain ⟨date, ascii, clock, fraction, zone⟩ := text
  rw [Option.eq_none_iff_forall_ne_some]
  intro i read
  simp only [withoutOffset?, reads_signedDate.complete _ (.unsigned date), Option.bind_eq_bind, Option.bind_some,
    Option.bind_eq_some_iff, Prod.exists] at read
  obtain ⟨_, _, isChar, h', m', s', _, isTime, _, _, -, _, made, -⟩ := read
  obtain ⟨_, same, rfl⟩ := (reads_char 'T').sound isChar
  obtain ⟨-, rfl⟩ := List.cons.inj same
  rw [reads_time.complete _ clock] at isTime
  cases isTime
  exact absurd (Clock.range_of_ofParts? made).2.2 (by decide)

theorem dateOnly?_of_zoned {t : Nat × Nat × Nat} (text : ZonedText cs day t q z) : dateOnly? cs = none := by
  obtain ⟨date, ascii, clock, fraction, zone⟩ := text
  simp [dateOnly?, reads_signedDate.complete _ (.unsigned date)]

/-! ## What a text denotes -/

/-- A text denotes so many seconds from 1970-01-01T00:00:00 UTC.  All digits of a fraction count.  A second 60 stands
for the last nanosecond of the one before, and a date for its midnight. -/
inductive Denotes : List Char → ℚ → Prop
  | zoned {cs : List Char} {day : Date} {h m s : Nat} {q : ℚ} {z n : Int} (text : ZonedText cs day (h, m, s) q z)
      (hour : h < 24) (minute : m < 60) (second : s < 60) (elapsed : day.Elapsed n) :
      Denotes cs (86400 * n + (3600 * h + 60 * m + s) + q - z)
  | leap {cs : List Char} {day : Date} {h m : Nat} {q : ℚ} {z n : Int} (text : ZonedText cs day (h, m, 60) q z)
      (hour : h < 24) (minute : m < 60) (elapsed : day.Elapsed n) :
      Denotes cs (86400 * n + (3600 * h + 60 * m + 60) - 1 / 10 ^ 9 - z)
  | plain {cs : List Char} {day : Date} {h m s : Nat} {q : ℚ} {n : Int} (text : PlainText cs day (h, m, s) q)
      (hour : h < 24) (minute : m < 60) (second : s < 60) (elapsed : day.Elapsed n) :
      Denotes cs (86400 * n + (3600 * h + 60 * m + s) + q)
  | date {cs : List Char} {day : Date} {n : Int} (text : SignedDateText cs day) (elapsed : day.Elapsed n) :
      Denotes cs (86400 * n)

theorem ZonedText.range {t : Nat × Nat × Nat} (text : ZonedText cs day t q z) : 0 ≤ q ∧ q < 1 := by
  obtain ⟨-, -, -, fraction, -⟩ := text
  exact fraction.range

theorem PlainText.range {t : Nat × Nat × Nat} (text : PlainText cs day t q) : 0 ≤ q ∧ q < 1 := by
  obtain ⟨-, -, fraction, -⟩ := text
  exact fraction.range

/-- The forms of a text in the order in which they are tried. -/
def read? (cs : List Char) : Option Instant := withOffset? cs <|> withoutOffset? cs <|> dateOnly? cs

theorem denotes_of_read? (read : read? cs = some i) : ∃ exact, Denotes cs exact := by
  rw [read?, Option.orElse_eq_some, Option.orElse_eq_some] at read
  rcases read with zoned | ⟨-, plain | ⟨-, date⟩⟩
  · obtain ⟨day, h, m, s, q, z, text⟩ := zoned_of_withOffset? zoned
    obtain ⟨nanos, -, same⟩ := withOffset?_zoned text
    rw [same] at zoned
    split at zoned
    · next leap =>
      obtain ⟨clock, made, -⟩ := Option.bind_eq_some_iff.1 zoned
      obtain ⟨hour, minute, -⟩ := Clock.range_of_ofParts? made
      exact ⟨_, .leap (leap ▸ text) hour minute (Date.elapsed_iff.2 rfl)⟩
    · obtain ⟨clock, made, -⟩ := Option.map_eq_some_iff.1 zoned
      obtain ⟨hour, minute, second⟩ := Clock.range_of_ofParts? made
      exact ⟨_, .zoned text hour minute second (Date.elapsed_iff.2 rfl)⟩
  · obtain ⟨day, h, m, s, q, text⟩ := plain_of_withoutOffset? plain
    obtain ⟨nanos, -, same⟩ := withoutOffset?_plain text
    rw [same] at plain
    obtain ⟨clock, made, -⟩ := Option.map_eq_some_iff.1 plain
    obtain ⟨hour, minute, second⟩ := Clock.range_of_ofParts? made
    exact ⟨_, .plain text hour minute second (Date.elapsed_iff.2 rfl)⟩
  · obtain ⟨day, text, -⟩ := dateOnly?_eq_some.1 date
    exact ⟨_, .date text (Date.elapsed_iff.2 rfl)⟩

theorem seconds_ofLocal {clock : Clock} {n : Int} {exact : ℚ} (elapsed : day.Elapsed n)
    (low : 86400 * n + clock.seconds - z ≤ exact) (high : exact < 86400 * n + clock.seconds - z + 1) :
    (Instant.ofLocal day clock z).seconds = ⌊exact⌋ := by
  symm
  rw [Int.floor_eq_iff, Instant.ofLocal, Date.elapsed_iff.1 elapsed, secondsPerDay]
  push_cast
  constructor <;> linarith

/-- An instant is read with its seconds rounded down. -/
theorem seconds_of_read? {exact : ℚ} (read : read? cs = some i) (denotes : Denotes cs exact) :
    i.seconds = ⌊exact⌋ := by
  cases denotes with
  | @zoned day h m s q z n text hour minute second elapsed =>
    obtain ⟨nanos, small, same⟩ := withOffset?_zoned text
    obtain ⟨clock, made, seconds⟩ := Clock.seconds_ofParts? hour minute second small
    rw [if_neg (Nat.ne_of_lt second), made] at same
    rw [read?, same] at read
    obtain rfl : Instant.ofLocal day clock z = i := Option.some.inj read
    obtain ⟨low, high⟩ := text.range
    apply seconds_ofLocal elapsed <;> rw [seconds] <;> push_cast <;> linarith
  | leap text hour minute elapsed =>
    obtain ⟨nanos, -, same⟩ := withOffset?_zoned text
    obtain ⟨clock, made, seconds⟩ := Clock.seconds_ofParts? hour minute (show 59 < 60 by decide)
      (show 999999999 < 1000000000 by decide)
    rw [if_pos rfl, made, Option.bind_some] at same
    -- A second 60 that ends no month is refused, and no other form has one.
    rw [read?, same, withoutOffset?_of_leap text, dateOnly?_of_zoned text] at read
    split at read
    · obtain rfl := Option.some.inj read
      apply seconds_ofLocal elapsed <;> rw [seconds] <;> push_cast <;> linarith
    · cases read
  | @plain day h m s q n text hour minute second elapsed =>
    obtain ⟨nanos, small, same⟩ := withoutOffset?_plain text
    obtain ⟨clock, made, seconds⟩ := Clock.seconds_ofParts? hour minute second small
    rw [made] at same
    rw [read?, withOffset?_of_plain text, same] at read
    obtain rfl : Instant.ofLocal day clock 0 = i := Option.some.inj read
    obtain ⟨low, high⟩ := text.range
    apply seconds_ofLocal elapsed <;> rw [seconds] <;> push_cast <;> linarith
  | @date day n text elapsed =>
    have made := dateOnly?_eq_some.2 ⟨day, text, rfl⟩
    rw [read?, withOffset?_of_date text, withoutOffset?_of_date text, made] at read
    obtain rfl : Instant.ofLocal day .midnight 0 = i := Option.some.inj read
    have seconds : Clock.midnight.seconds = 0 := rfl
    apply seconds_ofLocal elapsed <;> rw [seconds] <;> push_cast <;> linarith

/-! ## Whole days -/

/-- A number cut off to a whole one, toward zero. -/
def truncated (q : ℚ) : Int := if 0 ≤ q then ⌊q⌋ else ⌈q⌉

/-- Within the first second of a day before 1970, though not at its start. -/
def FirstSecond (exact : ℚ) : Prop := exact < 0 ∧ (⌊exact⌋ : ℚ) ≠ exact ∧ (86400 : Int) ∣ ⌊exact⌋

instance (exact : ℚ) : Decidable (FirstSecond exact) := inferInstanceAs (Decidable (_ ∧ _ ∧ _))

theorem truncated_div_of_neg {exact : ℚ} (negative : exact < 0) :
    truncated (exact / 86400) = -(-⌈exact⌉ / 86400) := by
  have floored : ⌊-exact / 86400⌋ = ⌊-exact⌋ / 86400 := Int.floor_div_natCast (-exact) 86400
  have below : ¬ 0 ≤ exact / 86400 := not_le.2 (div_neg_of_neg_of_pos negative (by norm_num))
  rw [truncated, if_neg below, ← Int.floor_neg, ← floored, ← Int.ceil_neg, neg_div, neg_neg]

theorem floor_tdiv (exact : ℚ) :
    ⌊exact⌋.tdiv 86400 = truncated (exact / 86400) - if FirstSecond exact then 1 else 0 := by
  by_cases sign : 0 ≤ exact
  · have nonneg : 0 ≤ exact / 86400 := by positivity
    have floored : ⌊exact / 86400⌋ = ⌊exact⌋ / 86400 := Int.floor_div_natCast exact 86400
    rw [truncated, if_pos nonneg, floored, if_neg fun first => not_lt.2 sign first.1, Int.sub_zero]
    exact Int.tdiv_eq_ediv_of_nonneg (Int.floor_nonneg.2 sign)
  · have negative : exact < 0 := not_le.1 sign
    have below : ⌊exact⌋ < 0 := Int.floor_lt_zero.2 negative
    have cut : ⌊exact⌋.tdiv 86400 = -(-⌊exact⌋ / 86400) := by
      rw [← Int.tdiv_eq_ediv_of_nonneg (by omega), Int.neg_tdiv, Int.neg_neg]
    rw [truncated_div_of_neg negative, cut]
    -- The days go up from the whole second above on the right, and from the one below on the left.
    by_cases whole : (⌊exact⌋ : ℚ) = exact
    · have same : ⌈exact⌉ = ⌊exact⌋ := by rw [← whole, Int.ceil_intCast, Int.floor_intCast]
      rw [same, if_neg fun first => first.2.1 whole, Int.sub_zero]
    · have above : ⌈exact⌉ = ⌊exact⌋ + 1 := by
        refine (Int.ceil_eq_floor_add_one_iff_notMem exact).2 ?_
        rintro ⟨n, rfl⟩
        exact whole (by rw [Int.floor_intCast])
      rw [above]
      split
      · next first =>
        have start := first.2.2
        omega
      · next later =>
        have inside : ¬ (86400 : Int) ∣ ⌊exact⌋ := fun start => later ⟨negative, whole, start⟩
        omega

/-- Every text that is read denotes an exact instant, and its days are that instant in days, cut off toward zero; only
within the first second of a day before 1970 they are one less. -/
theorem days_of_text {text : String} {i : Instant} (read : readInstant? text = some i) :
    (∃ exact, Denotes (Text.trim text.toList) exact) ∧ ∀ exact, Denotes (Text.trim text.toList) exact →
      i.days = truncated (exact / 86400) - if FirstSecond exact then 1 else 0 := by
  refine ⟨denotes_of_read? read, fun exact denotes => ?_⟩
  rw [Instant.days, seconds_of_read? read denotes]
  exact floor_tdiv exact

/-- Two hours ahead of UTC, an hour after midnight is on the day before. -/
theorem days_of_text_ahead : ∃ i, readInstant? "1970-01-02T01:00:00+02:00" = some i ∧
    (∃ exact, Denotes (Text.trim "1970-01-02T01:00:00+02:00".toList) exact) ∧ i.days = truncated (82800 / 86400) := by
  have read : readInstant? "1970-01-02T01:00:00+02:00" = some ⟨82800, 0, by decide⟩ := by decide +kernel
  have denotes : Denotes (Text.trim "1970-01-02T01:00:00+02:00".toList) 82800 := by
    have text : ZonedText ("1970-01-02".toList ++ 'T' :: ("01:00:00".toList ++ ([] ++ "+02:00".toList)))
        ⟨1970, 1, 2, by decide, by decide⟩ (1, 0, 0) 0 7200 :=
      .parts ((reads_date false).whole.1 (by decide)) (by decide) (reads_time.whole.1 (by decide)) .none
        (reads_offset.whole.1 (by decide))
    convert Denotes.zoned text (by decide) (by decide) (by decide) (.next .epoch) using 1
    · rfl
    · norm_num
  obtain ⟨denoted, days⟩ := days_of_text read
  have own := days 82800 denotes
  rw [if_neg (by decide), Int.sub_zero] at own
  exact ⟨_, read, denoted, own⟩

/-- Half a second into the last day before 1970 no day is left to 1970, but the days are those of its midnight. -/
theorem days_of_first_second : ∃ i, readInstant? "1969-12-31T00:00:00.5Z" = some i ∧
    Denotes (Text.trim "1969-12-31T00:00:00.5Z".toList) (-172799 / 2) ∧ i.days = -1 ∧
      truncated (-172799 / 2 / 86400) = 0 := by
  have denotes : Denotes (Text.trim "1969-12-31T00:00:00.5Z".toList) (-172799 / 2) := by
    have half : FractionText ['.', '5'] (5 / 10 ^ 1) := .digits (by simp [AllDigits]) nofun
    have text : ZonedText ("1969-12-31".toList ++ 'T' :: ("00:00:00".toList ++ (['.', '5'] ++ ['Z'])))
        ⟨1969, 12, 31, by decide, by decide⟩ (0, 0, 0) (5 / 10 ^ 1) 0 :=
      .parts ((reads_date false).whole.1 (by decide)) (by decide) (reads_time.whole.1 (by decide)) half .upper
    have before : Date.Elapsed ⟨1969, 12, 31, by decide, by decide⟩ (-1) := Date.elapsed_iff.2 (by decide)
    convert Denotes.zoned text (by decide) (by decide) (by decide) before using 1
    · rfl
    · norm_num
  exact ⟨⟨-86400, 500000000, by decide⟩, by decide +kernel, denotes, by decide, by decide +kernel⟩

end Iso8601

end Rollup.Calendar
