import Rollup.Json.Reader
import Rollup.Proofs.Text.Quoted

/-!
# Reading a text token by token

`Reading.feed?` runs the reader over the tokens of a text.  It takes the token at the front and goes on with the rest
(`Reading.feed?_scan`), so a proof about a text follows the text and never looks at the list of its tokens.
-/

namespace Rollup.Json

open Token

/-- The characters of a quoted text are the next token. -/
theorem Token.scan?_encode (s : String) (r : List Char) :
    scan? (Text.Quoted.encode s.toList ++ r) = some (.text s, r) := by
  have read := Text.Quoted.scan_encode s.toList r
  have own : Text.Quoted.encode s.toList ++ r = '"' :: (s.toList.flatMap Text.Quoted.escape ++ '"' :: r) := by
    simp [Text.Quoted.encode]
  rw [own]
  show (Text.Quoted.scan .plain _).map _ = _
  rw [read, Option.map_some, String.ofList_toList]

/-- No token starts with a blank. -/
theorem Token.isBlank_of_scan? {c : Char} {rest : List Char} {t : Token × List Char}
    (scanned : scan? (c :: rest) = some t) : isBlank c = false := by
  cases blank : isBlank c with
  | false => rfl
  | true =>
    simp only [isBlank, Bool.or_eq_true, decide_eq_true_eq] at blank
    obtain ((rfl | rfl) | rfl) | rfl := blank <;> cases scanned

namespace Reading

variable {depth : Nat} {r : Reading} {cs after : List Char} {t : Token}

/-- Reads a text from a state on. -/
def feed? (depth : Nat) (r : Reading) (cs : List Char) : Option Reading := (Token.ofChars? cs).bind (r.run? depth)

@[simp]
theorem feed?_nil : feed? depth r [] = some r := by
  rw [feed?, Token.ofChars?]
  rfl

/-- The token at the front is taken first. -/
theorem feed?_scan (scanned : scan? cs = some (t, after)) :
    feed? depth r cs = (r.step? depth t).bind fun r' => feed? depth r' after := by
  cases cs with
  | nil => cases scanned
  | cons c rest =>
    have tokens : Token.ofChars? (c :: rest) = (Token.ofChars? after).map (t :: ·) := by
      rw [Token.ofChars?, isBlank_of_scan? scanned, if_neg (by decide)]
      split
      · next none => cases scanned.symm.trans none
      · next own =>
        cases scanned.symm.trans own
        rfl
    simp only [feed?, tokens]
    cases Token.ofChars? after with
    | none => cases r.step? depth t <;> rfl
    | some ts => rfl

end Reading

theorem ofChars?_eq_feed? (cs : List Char) :
    ofChars? cs = (Reading.start.feed? maxDepth cs).bind Reading.result? := by
  simp only [ofChars?, Reading.feed?, Option.bind_assoc]
  rfl

end Rollup.Json
