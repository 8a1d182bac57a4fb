/-!
# Quoted texts

A quoted text stands between double quotes.  A quote, a backslash and the control characters below
the space are written as escapes and nothing else is; a reader takes every escape that JSON has.

Reading is one step per character: `Pending` says how much of an escape has been read, so `scan`
recurses on the text alone.  A character beyond the basic plane may be escaped as a pair of
surrogates; a surrogate without its partner is refused.
-/

namespace Rollup.Text

/-! ## Hexadecimal digits -/

/-- The lower-case hexadecimal digit of a number below sixteen. -/
def hexDigit (n : Nat) : Char :=
  if n < 10 then Char.ofNat ('0'.toNat + n) else Char.ofNat ('a'.toNat + (n - 10))

/-- The value of a hexadecimal digit of either case. -/
def hexValue? (c : Char) : Option Nat :=
  if '0' ≤ c ∧ c ≤ '9' then some (c.toNat - '0'.toNat)
  else if 'a' ≤ c ∧ c ≤ 'f' then some (c.toNat - 'a'.toNat + 10)
  else if 'A' ≤ c ∧ c ≤ 'F' then some (c.toNat - 'A'.toNat + 10)
  else none

/-- A number as a fixed count of hexadecimal digits. -/
def hexDigits (count n : Nat) : List Char :=
  ((List.range count).map fun i => hexDigit (n / Nat.pow 16 i % 16)).reverse

namespace Quoted

/-! ## Writing -/

/-- A character inside quotes. -/
def escape (c : Char) : List Char :=
  if c = '"' then ['\\', '"']
  else if c = '\\' then ['\\', '\\']
  else if c = '\x08' then ['\\', 'b']
  else if c = '\t' then ['\\', 't']
  else if c = '\n' then ['\\', 'n']
  else if c = '\x0c' then ['\\', 'f']
  else if c = '\r' then ['\\', 'r']
  else if c.toNat < 0x20 then '\\' :: 'u' :: hexDigits 4 c.toNat
  else [c]

/-- A text between quotes. -/
def encode (cs : List Char) : List Char := '"' :: cs.flatMap escape ++ ['"']

/-! ## Reading -/

/-- What has been read of an escape. -/
inductive Pending
  /-- No escape is open. -/
  | plain
  /-- A backslash. -/
  | backslash
  /-- Some of the four digits of a code unit; `high` is the leading surrogate before it, if any. -/
  | digits (high : Option Nat) (left : Nat) (value : Nat)
  /-- A leading surrogate. -/
  | surrogate (high : Nat)
  /-- A leading surrogate and a backslash. -/
  | surrogateBackslash (high : Nat)
deriving Repr, DecidableEq

/-- What one character makes of the state: a new state, with the character that is complete. -/
structure Step where
  pending : Pending
  complete : Option Char := none
deriving Repr, DecidableEq

/-- The character that a one-letter escape stands for. -/
def simpleEscape? : Char → Option Char
  | '"' => some '"'
  | '\\' => some '\\'
  | '/' => some '/'
  | 'b' => some '\x08'
  | 'f' => some '\x0c'
  | 'n' => some '\n'
  | 'r' => some '\r'
  | 't' => some '\t'
  | _ => none

/-- The step at the last digit of a code unit. -/
def unitStep? : Option Nat → Nat → Option Step
  | none, n =>
    if 0xD800 ≤ n ∧ n < 0xDC00 then some ⟨.surrogate n, none⟩
    else if 0xDC00 ≤ n ∧ n < 0xE000 then none
    else some ⟨.plain, some (Char.ofNat n)⟩
  | some high, n =>
    if 0xDC00 ≤ n ∧ n < 0xE000 then
      some ⟨.plain, some (Char.ofNat (0x10000 + (high - 0xD800) * 0x400 + (n - 0xDC00)))⟩
    else none

/-- Reads one character that is not the closing quote. -/
def step? : Pending → Char → Option Step
  | .plain, c =>
    if c = '\\' then some ⟨.backslash, none⟩
    else if c.toNat < 0x20 then none
    else some ⟨.plain, some c⟩
  | .backslash, c =>
    if c = 'u' then some ⟨.digits none 3 0, none⟩
    else (simpleEscape? c).map fun d => ⟨.plain, some d⟩
  | .digits high left value, c => do
    let d ← hexValue? c
    let value := 16 * value + d
    match left with
    | 0 => unitStep? high value
    | left + 1 => some ⟨.digits high left value, none⟩
  | .surrogate high, c => if c = '\\' then some ⟨.surrogateBackslash high, none⟩ else none
  | .surrogateBackslash high, c => if c = 'u' then some ⟨.digits (some high) 3 0, none⟩ else none

/-- Reads a text up to its closing quote and gives what follows the quote. -/
def scan (pending : Pending) : List Char → Option (List Char × List Char)
  | [] => none
  | c :: rest =>
    if pending = .plain ∧ c = '"' then some ([], rest)
    else
      match step? pending c with
      | none => none
      | some s => (scan s.pending rest).map fun (text, after) => (s.complete.toList ++ text, after)

theorem scan_shorter {pending : Pending} {cs text after : List Char}
    (h : scan pending cs = some (text, after)) : after.length < cs.length := by
  induction cs generalizing pending text after with
  | nil => simp [scan] at h
  | cons c rest ih =>
    rw [scan] at h
    split at h
    · simp only [Option.some.injEq, Prod.mk.injEq] at h
      simp [← h.2]
    · split at h
      · cases h
      · next s hs =>
        obtain ⟨⟨t, a⟩, hscan, heq⟩ := Option.map_eq_some_iff.1 h
        simp only [Prod.mk.injEq] at heq
        have := ih hscan
        rw [heq.2] at this
        simp only [List.length_cons]
        omega

end Quoted

end Rollup.Text
