import Rollup.Json.Basic

/-!
# The words of a JSON text

`Token.ofChars?` cuts a text into tokens.  Blanks, which are only space, tab, line feed and carriage
return, stand between tokens and are dropped.  A text that contains anything else has no tokens.
-/

namespace Rollup.Json

/-- A word of a JSON text. -/
inductive Token
  | openList
  | closeList
  | openObject
  | closeObject
  | comma
  | colon
  | null
  | bool (b : Bool)
  | number (l : Decimal.Literal)
  | text (s : String)
deriving Repr, DecidableEq

namespace Token

/-- Whether a character may stand between tokens. -/
def isBlank (c : Char) : Bool := c = ' ' || c = '\t' || c = '\n' || c = '\r'

/-! ## Numbers -/

/-- The digits at the front, with what follows them. -/
def scanDigits (cs : List Char) : List Char × List Char :=
  (cs.takeWhile Char.isDigit, cs.dropWhile Char.isDigit)

/-- The digits at the front, of which there must be one. -/
def scanDigits1? (cs : List Char) : Option (List Char × List Char) :=
  if (scanDigits cs).1 = [] then none else some (scanDigits cs)

/-- The whole part of a number.  A leading zero stands alone. -/
def scanWhole? : List Char → Option (List Char × List Char)
  | [] => none
  | c :: rest => if c = '0' then some (['0'], rest) else scanDigits1? (c :: rest)

/-- A fraction: a point and at least one digit. -/
def scanFraction? : List Char → Option (Option (List Char) × List Char)
  | [] => some (none, [])
  | c :: rest =>
    if c = '.' then (scanDigits1? rest).map fun r => (some r.1, r.2)
    else some (none, c :: rest)

/-- The sign of an exponent, with what follows it. -/
def scanSign : List Char → Bool × List Char
  | [] => (false, [])
  | c :: rest =>
    if c = '-' then (true, rest) else if c = '+' then (false, rest) else (false, c :: rest)

/-- An exponent: a letter, a sign if there is one, and at least one digit. -/
def scanExponent? : List Char → Option (Option Int × List Char)
  | [] => some (none, [])
  | c :: rest =>
    if c = 'e' ∨ c = 'E' then
      (scanDigits1? (scanSign rest).2).map fun r =>
        (some (Binary64.signed (scanSign rest).1 (Decimal.natOfDigits r.1)), r.2)
    else some (none, c :: rest)

/-- A number behind its sign. -/
def scanMagnitude? (negative : Bool) (cs : List Char) : Option (Decimal.Literal × List Char) := do
  let (whole, cs) ← scanWhole? cs
  let (fraction, cs) ← scanFraction? cs
  let (exponent, cs) ← scanExponent? cs
  return (⟨negative, whole, fraction, exponent⟩, cs)

/-- The number at the front of a text. -/
def scanNumber? : List Char → Option (Decimal.Literal × List Char)
  | [] => none
  | c :: rest => if c = '-' then scanMagnitude? true rest else scanMagnitude? false (c :: rest)

/-! ## Tokens -/

/-- The token at the front of a text that starts with no blank. -/
def scan? : List Char → Option (Token × List Char)
  | '[' :: rest => some (.openList, rest)
  | ']' :: rest => some (.closeList, rest)
  | '{' :: rest => some (.openObject, rest)
  | '}' :: rest => some (.closeObject, rest)
  | ',' :: rest => some (.comma, rest)
  | ':' :: rest => some (.colon, rest)
  | 'n' :: 'u' :: 'l' :: 'l' :: rest => some (.null, rest)
  | 't' :: 'r' :: 'u' :: 'e' :: rest => some (.bool true, rest)
  | 'f' :: 'a' :: 'l' :: 's' :: 'e' :: rest => some (.bool false, rest)
  | '"' :: rest =>
    (Text.Quoted.scan .plain rest).map fun r => (Token.text (String.ofList r.1), r.2)
  | cs => (scanNumber? cs).map fun r => (Token.number r.1, r.2)

theorem scanDigits_snd_le (cs : List Char) : (scanDigits cs).2.length ≤ cs.length := by
  induction cs with
  | nil => simp [scanDigits]
  | cons c rest ih =>
    simp only [scanDigits, List.dropWhile_cons] at ih ⊢
    split <;> simp only [List.length_cons] <;> omega

theorem scanDigits1?_shorter {cs : List Char} {r : List Char × List Char}
    (h : scanDigits1? cs = some r) : r.2.length < cs.length := by
  rw [scanDigits1?] at h
  split at h
  · cases h
  · next hne =>
    cases h
    cases cs with
    | nil => simp [scanDigits] at hne
    | cons c rest =>
      by_cases hc : c.isDigit
      · have := scanDigits_snd_le rest
        simp only [scanDigits] at this
        simp only [scanDigits, List.dropWhile_cons, hc, if_true, List.length_cons]
        omega
      · simp [scanDigits, hc] at hne

theorem scanWhole?_shorter {cs : List Char} {r : List Char × List Char}
    (h : scanWhole? cs = some r) : r.2.length < cs.length := by
  cases cs with
  | nil => cases h
  | cons c rest =>
    rw [scanWhole?] at h
    split at h
    · cases h
      simp
    · exact scanDigits1?_shorter h

theorem scanFraction?_le {cs : List Char} {r : Option (List Char) × List Char}
    (h : scanFraction? cs = some r) : r.2.length ≤ cs.length := by
  cases cs with
  | nil => cases h; simp
  | cons c rest =>
    rw [scanFraction?] at h
    split at h
    · obtain ⟨d, hd, rfl⟩ := Option.map_eq_some_iff.1 h
      have := scanDigits1?_shorter hd
      simp only [List.length_cons]
      omega
    · cases h
      simp

theorem scanSign_snd_le (cs : List Char) : (scanSign cs).2.length ≤ cs.length := by
  cases cs with
  | nil => simp [scanSign]
  | cons c rest =>
    rw [scanSign]
    split
    · simp
    · split <;> simp

theorem scanExponent?_le {cs : List Char} {r : Option Int × List Char}
    (h : scanExponent? cs = some r) : r.2.length ≤ cs.length := by
  cases cs with
  | nil => cases h; simp
  | cons c rest =>
    rw [scanExponent?] at h
    split at h
    · obtain ⟨d, hd, rfl⟩ := Option.map_eq_some_iff.1 h
      have := scanDigits1?_shorter hd
      have := scanSign_snd_le rest
      simp only [List.length_cons]
      omega
    · cases h
      simp

theorem scanMagnitude?_shorter {negative : Bool} {cs : List Char}
    {r : Decimal.Literal × List Char} (h : scanMagnitude? negative cs = some r) :
    r.2.length < cs.length := by
  simp only [scanMagnitude?, Option.bind_eq_bind, Option.bind_eq_some_iff, Option.pure_def,
    Option.some.injEq] at h
  obtain ⟨w, hw, f, hf, e, he, rfl⟩ := h
  have h1 := scanWhole?_shorter hw
  have h2 := scanFraction?_le hf
  have h3 := scanExponent?_le he
  simp only
  omega

theorem scanNumber?_shorter {cs : List Char} {r : Decimal.Literal × List Char}
    (h : scanNumber? cs = some r) : r.2.length < cs.length := by
  cases cs with
  | nil => cases h
  | cons c rest =>
    rw [scanNumber?] at h
    split at h
    · have := scanMagnitude?_shorter h
      simp only [List.length_cons]
      omega
    · exact scanMagnitude?_shorter h

/-- A token takes at least one character. -/
theorem scan?_shorter {cs : List Char} {r : Token × List Char} (h : scan? cs = some r) :
    r.2.length < cs.length := by
  rw [scan?.eq_def] at h
  split at h
  case h_10 =>
    obtain ⟨⟨text, after⟩, hscan, rfl⟩ := Option.map_eq_some_iff.1 h
    have := Text.Quoted.scan_shorter hscan
    simp only [List.length_cons]
    omega
  case h_11 =>
    obtain ⟨⟨l, after⟩, hscan, rfl⟩ := Option.map_eq_some_iff.1 h
    exact scanNumber?_shorter hscan
  all_goals
    cases h
    simp only [List.length_cons]
    omega

/-- The tokens of a text. -/
def ofChars? : List Char → Option (List Token)
  | [] => some []
  | c :: rest =>
    if isBlank c then ofChars? rest
    else
      match h : scan? (c :: rest) with
      | none => none
      | some (t, after) =>
        have : after.length < (c :: rest).length := scan?_shorter h
        (ofChars? after).map (t :: ·)
termination_by cs => cs.length
decreasing_by
  · simp
  · assumption

end Token

end Rollup.Json
