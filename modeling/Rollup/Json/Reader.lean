import Rollup.Json.Token

/-!
# Reading JSON

The reader is a stack machine over tokens.  `Reading` holds the containers that are still open, the
innermost first, and what must come next; `Reading.step?` takes one token.  `Json.ofChars?` runs the
machine over the tokens of a text, so it ends with the text and needs no bound of its own.

The machine refuses a token that would open more containers than the given depth.
-/

namespace Rollup.Json

/-- A container that is still open, with what it holds so far in reverse. -/
inductive Frame
  | list (items : List Json)
  | object (members : List (String × Json))
  /-- An object in which the value of the named member is being read. -/
  | member (members : List (String × Json)) (name : String)
deriving Repr

/-- What the next token must be. -/
inductive Expected
  | value
  /-- A value, or the end of the list that was just opened. -/
  | valueOrClose
  | name
  /-- A name, or the end of the object that was just opened. -/
  | nameOrClose
  | colon
  | commaOrClose
  /-- Nothing, because the text is complete. -/
  | finish (result : Json)
deriving Repr

/-- A text that is partly read. -/
structure Reading where
  stack : List Frame
  expected : Expected
deriving Repr

namespace Reading

/-- The machine before the first token. -/
def start : Reading := ⟨[], .value⟩

/-- Whether a value may come next. -/
def takesValue (r : Reading) : Bool :=
  match r.expected with
  | .value | .valueOrClose => true
  | _ => false

/-- Hands a complete value to the innermost container. -/
def complete? (j : Json) : List Frame → Option Reading
  | [] => some ⟨[], .finish j⟩
  | .list items :: outer => some ⟨.list (j :: items) :: outer, .commaOrClose⟩
  | .member members name :: outer => some ⟨.object ((name, j) :: members) :: outer, .commaOrClose⟩
  | .object _ :: _ => none

/-- Reads a value that is a single token. -/
def scalar? (r : Reading) (j : Json) : Option Reading :=
  if r.takesValue then complete? j r.stack else none

/-- Opens a container, unless `depth` are open already. -/
def open? (depth : Nat) (r : Reading) (frame : Frame) (expected : Expected) : Option Reading :=
  if r.takesValue ∧ r.stack.length < depth then some ⟨frame :: r.stack, expected⟩ else none

/-- Reads one token. -/
def step? (depth : Nat) (r : Reading) : Token → Option Reading
  | .null => r.scalar? .null
  | .bool b => r.scalar? (.bool b)
  | .number l => (ofLiteral? l).bind r.scalar?
  | .openList => r.open? depth (.list []) .valueOrClose
  | .openObject => r.open? depth (.object []) .nameOrClose
  | .text s =>
    match r.expected, r.stack with
    | .name, .object members :: outer | .nameOrClose, .object members :: outer =>
      some ⟨.member members s :: outer, .colon⟩
    | _, _ => r.scalar? (.text s)
  | .colon =>
    match r.expected with
    | .colon => some ⟨r.stack, .value⟩
    | _ => none
  | .comma =>
    match r.expected, r.stack with
    | .commaOrClose, .list items :: outer => some ⟨.list items :: outer, .value⟩
    | .commaOrClose, .object members :: outer => some ⟨.object members :: outer, .name⟩
    | _, _ => none
  | .closeList =>
    match r.expected, r.stack with
    | .commaOrClose, .list items :: outer | .valueOrClose, .list items :: outer =>
      complete? (.list items.reverse) outer
    | _, _ => none
  | .closeObject =>
    match r.expected, r.stack with
    | .commaOrClose, .object members :: outer | .nameOrClose, .object members :: outer =>
      complete? (.object members.reverse) outer
    | _, _ => none

/-- Reads tokens until one is refused. -/
def run? (depth : Nat) (r : Reading) : List Token → Option Reading
  | [] => some r
  | t :: rest => (r.step? depth t).bind fun r => r.run? depth rest

/-- The value of a complete text. -/
def result? (r : Reading) : Option Json :=
  match r.expected with
  | .finish j => some j
  | _ => none

end Reading

/-- The most containers that may be open at once. -/
def maxDepth : Nat := 127

/-- The tree that a list of tokens spells. -/
def ofTokens? (tokens : List Token) : Option Json :=
  (Reading.start.run? maxDepth tokens).bind Reading.result?

/-- The tree that a text denotes. -/
def ofChars? (cs : List Char) : Option Json := (Token.ofChars? cs).bind ofTokens?

/-- The tree that a text denotes. -/
def ofString? (text : String) : Option Json := ofChars? text.toList

end Rollup.Json
