import Rollup.Text.Quoted

/-!
# TOML strings

TOML has four kinds of strings: quoted or literal, on one line or on several.  A `Style` says which
kind is read, and `scan` reads one character at a time up to the closing quotes.

On several lines up to two quotes may stand in front of the closing three, a line feed behind the
opening quotes is dropped, and a backslash at the end of a line drops all blanks that follow it.
-/

namespace Rollup.Toml

/-- A kind of string. -/
structure Style where
  quote : Char
  /-- Whether a backslash starts an escape. -/
  escapes : Bool
  /-- Whether the string may hold line feeds. -/
  multiline : Bool
deriving Repr, DecidableEq

namespace Style

/-- What has been read of an escape or of the closing quotes. -/
inductive Pending
  | plain
  /-- Some quotes, which may close the string. -/
  | quotes (count : Nat)
  | backslash
  /-- Some of the digits of a code point. -/
  | digits (left : Nat) (value : Nat)
  /-- A backslash and blanks; `crossed` once a line feed was among them. -/
  | lineEnd (crossed : Bool)
deriving Repr, DecidableEq

/-- What one character makes of a string being read. -/
inductive Step
  | go (pending : Pending) (text : List Char)
  /-- The character closes the string. -/
  | close (text : List Char)
  /-- The string was closed before the character. -/
  | closed (text : List Char)
  | refuse
deriving Repr, DecidableEq

/-- Whether a character may stand in a string or a comment as it is. -/
def isPlain (c : Char) : Bool := c = '\t' || (0x20 ≤ c.toNat && c.toNat ≠ 0x7F)

/-- The step in front of which nothing is pending, behind `text`. -/
def plainStep (s : Style) (text : List Char) (c : Char) : Step :=
  if c = s.quote then
    if s.multiline then .go (.quotes 1) text else .close text
  else if s.escapes ∧ c = '\\' then .go .backslash text
  else if isPlain c ∨ (s.multiline ∧ c = '\n') then .go .plain (text ++ [c])
  else .refuse

/-- The character that a one-letter escape stands for. -/
def simpleEscape? : Char → Option Char
  | 'b' => some '\x08'
  | 't' => some '\t'
  | 'n' => some '\n'
  | 'f' => some '\x0c'
  | 'r' => some '\r'
  | 'e' => some '\x1b'
  | '"' => some '"'
  | '\\' => some '\\'
  | _ => none

/-- The step behind a backslash. -/
def escapeStep (s : Style) (c : Char) : Step :=
  match simpleEscape? c with
  | some d => .go .plain [d]
  | none =>
    if c = 'x' then .go (.digits 2 0) []
    else if c = 'u' then .go (.digits 4 0) []
    else if c = 'U' then .go (.digits 8 0) []
    else if s.multiline ∧ (c = ' ' ∨ c = '\t') then .go (.lineEnd false) []
    else if s.multiline ∧ c = '\n' then .go (.lineEnd true) []
    else .refuse

/-- Reads one character. -/
def step (s : Style) : Pending → Char → Step
  | .plain, c => s.plainStep [] c
  | .quotes n, c =>
    if c = s.quote then
      if n = 4 then .close (List.replicate 2 s.quote) else .go (.quotes (n + 1)) []
    else if 3 ≤ n then .closed (List.replicate (n - 3) s.quote)
    else s.plainStep (List.replicate n s.quote) c
  | .backslash, c => s.escapeStep c
  | .digits left value, c =>
    match Text.hexValue? c with
    | none => .refuse
    | some d =>
      let value := 16 * value + d
      if 1 < left then .go (.digits (left - 1) value) []
      else if value.isValidChar then .go .plain [Char.ofNat value]
      else .refuse
  | .lineEnd crossed, c =>
    if c = ' ' ∨ c = '\t' then .go (.lineEnd crossed) []
    else if c = '\n' then .go (.lineEnd true) []
    else if crossed then s.plainStep [] c
    else .refuse

/-- Reads a string behind its opening quotes and gives what follows the closing ones. -/
def scan (s : Style) : Pending → List Char → Option (List Char × List Char)
  | .quotes n, [] => if 3 ≤ n then some (List.replicate (n - 3) s.quote, []) else none
  | _, [] => none
  | pending, c :: rest =>
    match s.step pending c with
    | .go pending text => (s.scan pending rest).map fun r => (text ++ r.1, r.2)
    | .close text => some (text, rest)
    | .closed text => some (text, c :: rest)
    | .refuse => none

end Style

/-- The string at the front of a text that starts with a quote. -/
def scanString? (cs : List Char) : Option (List Char × List Char) :=
  match cs with
  | '"' :: '"' :: '"' :: '\n' :: rest | '"' :: '"' :: '"' :: rest =>
    Style.scan ⟨'"', true, true⟩ .plain rest
  | '\'' :: '\'' :: '\'' :: '\n' :: rest | '\'' :: '\'' :: '\'' :: rest =>
    Style.scan ⟨'\'', false, true⟩ .plain rest
  | '"' :: rest => Style.scan ⟨'"', true, false⟩ .plain rest
  | '\'' :: rest => Style.scan ⟨'\'', false, false⟩ .plain rest
  | _ => none

end Rollup.Toml
