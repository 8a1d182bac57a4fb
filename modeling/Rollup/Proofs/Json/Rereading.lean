import Rollup.Proofs.Decimal.Rereading
import Rollup.Proofs.Json.Tokens

/-!
# A written tree reads back

The text of a tree is read as the tree (`ofChars?_chars`), but for NaN and the infinities, which are written as null
(`asWritten`).  What a tree must have for it is that its whole numbers are words and that its containers are not nested
deeper than the reader goes (`Fits`).

The induction is on the tree, with whatever text stands behind it: a tree that is read in any state that awaits a value
is handed to the innermost open container, and the reader goes on from there (`feed?_chars`).
-/

namespace Rollup.Json

open Token

mutual

/-- What the text of a tree tells: there is no number for NaN and the infinities. -/
def asWritten : Json → Json
  | .null => .null
  | .bool b => .bool b
  | .int n => .int n
  | .float x => if x.isFinite then .float x else .null
  | .text s => .text s
  | .list items => .list (itemsAsWritten items)
  | .object members => .object (membersAsWritten members)

/-- The items of a list as they are written. -/
def itemsAsWritten : List Json → List Json
  | [] => []
  | item :: items => item.asWritten :: itemsAsWritten items

/-- The members of an object as they are written. -/
def membersAsWritten : List (String × Json) → List (String × Json)
  | [] => []
  | (name, j) :: members => (name, j.asWritten) :: membersAsWritten members

end

mutual

/-- The containers of a tree nest at most so deep, and its whole numbers are words. -/
def Fits : Nat → Json → Prop
  | _, .int n => -0x8000000000000000 ≤ n ∧ n < 0x10000000000000000
  | depth, .list items => 0 < depth ∧ ItemsFit (depth - 1) items
  | depth, .object members => 0 < depth ∧ MembersFit (depth - 1) members
  | _, _ => True

/-- Every item fits. -/
def ItemsFit (depth : Nat) : List Json → Prop
  | [] => True
  | item :: items => item.Fits depth ∧ ItemsFit depth items

/-- Every member fits. -/
def MembersFit (depth : Nat) : List (String × Json) → Prop
  | [] => True
  | (_, j) :: members => j.Fits depth ∧ MembersFit depth members

end

theorem membersFit_append {depth : Nat} {front back : List (String × Json)} (fit : MembersFit depth front)
    (fit' : MembersFit depth back) : MembersFit depth (front ++ back) := by
  induction front with
  | nil => exact fit'
  | cons m front ih => exact ⟨fit.1, ih fit.2⟩

theorem membersAsWritten_append (front back : List (String × Json)) :
    membersAsWritten (front ++ back) = membersAsWritten front ++ membersAsWritten back := by
  induction front with
  | nil => rfl
  | cons m front ih => rw [List.cons_append, membersAsWritten, membersAsWritten, ih, List.cons_append]

/-! ## Numbers -/

/-- A double that is finite decodes to a sign and a magnitude. -/
theorem exists_decode_of_isFinite {x : Float} (finite : x.isFinite = true) :
    ∃ negative m e, Binary64.decode x = .finite negative m e := by
  have unpacked : x.toModel.unpack.isFinite = true := finite
  rw [decode_eq_ofUnpacked]
  cases own : x.toModel.unpack with
  | notANumber | infinity _ =>
    rw [own] at unpacked
    cases unpacked
  | zero _ | finite _ _ _ _ => exact ⟨_, _, _, rfl⟩

/-- NaN and the infinities are written as null. -/
theorem chars_of_not_isFinite {x : Float} (infinite : x.isFinite = false) :
    floatLayout.chars x = ['n', 'u', 'l', 'l'] := by
  have unpacked : x.toModel.unpack.isFinite = false := infinite
  rw [Decimal.Layout.chars, decode_eq_ofUnpacked]
  cases own : x.toModel.unpack with
  | notANumber | infinity _ => rfl
  | zero _ | finite _ _ _ _ =>
    rw [own] at unpacked
    cases unpacked

/-- The literal of a word is a whole number. -/
theorem ofLiteral?_ofInt {n : Int} (word : -0x8000000000000000 ≤ n ∧ n < 0x10000000000000000) :
    ofLiteral? (.ofInt n) = some (.int n) := by
  have plain : (Decimal.Literal.ofInt n).isPlain = true := rfl
  have sign : ¬ ((Decimal.Literal.ofInt n).negative = true ∧ n = 0) := by
    rintro ⟨negative, rfl⟩
    cases negative
  rw [ofLiteral?]
  simp only [Decimal.Literal.toInt_ofInt]
  rw [if_pos ⟨plain, sign, word⟩]

namespace Reading

variable {depth : Nat} {r : Reading} {rest : List Char}

/-! ## Single steps -/

theorem scalar?_of_takesValue (takes : r.takesValue = true) (j : Json) : r.scalar? j = complete? j r.stack := by
  rw [scalar?, if_pos takes]

theorem open?_of_takesValue (takes : r.takesValue = true) (room : r.stack.length < depth) (frame : Frame)
    (expected : Expected) : r.open? depth frame expected = some ⟨frame :: r.stack, expected⟩ := by
  rw [open?, if_pos ⟨takes, room⟩]

theorem step?_text_of_takesValue (takes : r.takesValue = true) (s : String) :
    r.step? depth (.text s) = complete? (.text s) r.stack := by
  obtain ⟨stack, expected⟩ := r
  cases expected with
  | value | valueOrClose => exact scalar?_of_takesValue takes _
  | _ => cases takes

/-- A name and its colon make the reader await the value of the member. -/
theorem feed?_name {done : List (String × Json)} {outer : List Frame} {expected : Expected}
    (named : expected = .name ∨ expected = .nameOrClose) (name : String) (text : List Char) :
    feed? depth ⟨.object done :: outer, expected⟩ (Text.Quoted.encode name.toList ++ ':' :: text) =
      feed? depth ⟨.member done name :: outer, .value⟩ text := by
  have taken : step? depth ⟨.object done :: outer, expected⟩ (.text name) = some ⟨.member done name :: outer, .colon⟩ := by
    obtain rfl | rfl := named <;> rfl
  rw [feed?_scan (scan?_encode name _), taken, Option.bind_some, feed?_scan rfl]
  rfl

/-! ## Trees -/

theorem feed?_float (x : Float) (takes : r.takesValue = true) (ends : EndsNumber rest) :
    feed? depth r (floatLayout.chars x ++ rest) =
      (complete? (asWritten (.float x)) r.stack).bind fun r' => feed? depth r' rest := by
  cases finite : x.isFinite with
  | true =>
    obtain ⟨negative, m, e, decoded⟩ := exists_decode_of_isFinite finite
    obtain ⟨lit, decimal, nearest, scanned⟩ := Decimal.Layout.exists_rereading (l := floatLayout) rfl (.inr rfl) decoded
    have read : ofLiteral? lit = some (.float x) := by
      rw [ofLiteral?]
      simp [decimal, nearest]
    rw [feed?_scan (scanned rest ends), step?, read, Option.bind_some, scalar?_of_takesValue takes, asWritten,
      if_pos finite]
  | false =>
    have scanned : scan? (floatLayout.chars x ++ rest) = some (.null, rest) := by
      rw [chars_of_not_isFinite finite]
      rfl
    rw [feed?_scan scanned, step?, scalar?_of_takesValue takes, asWritten, if_neg (by simp [finite])]

/-- No number goes on behind an item. -/
theorem endsNumber_itemChars (items : List Json) (rest : List Char) : EndsNumber (itemChars items ++ ']' :: rest) := by
  cases items <;> simp [EndsNumber, itemChars]

/-- No number goes on behind a member. -/
theorem endsNumber_memberChars (members : List (String × Json)) (rest : List Char) :
    EndsNumber (memberChars members ++ '}' :: rest) := by
  cases members <;> simp [EndsNumber, memberChars]

mutual

/-- A tree is read and handed to the innermost container that is open. -/
theorem feed?_chars (j : Json) (r : Reading) (rest : List Char) (takes : r.takesValue = true)
    (fits : j.Fits (depth - r.stack.length)) (ends : EndsNumber rest) :
    feed? depth r (j.chars ++ rest) = (complete? j.asWritten r.stack).bind fun r' => feed? depth r' rest := by
  match j with
  | .null =>
    have scanned : scan? (chars .null ++ rest) = some (.null, rest) := rfl
    rw [feed?_scan scanned, step?, scalar?_of_takesValue takes, asWritten]
  | .bool b =>
    have scanned : scan? (chars (.bool b) ++ rest) = some (.bool b, rest) := by cases b <;> rfl
    rw [feed?_scan scanned, step?, scalar?_of_takesValue takes, asWritten]
  | .int n =>
    have scanned := scan?_chars (Decimal.Literal.wellFormed_ofInt n) ends
    rw [Decimal.Literal.chars_ofInt] at scanned
    rw [chars, feed?_scan scanned, step?, ofLiteral?_ofInt (by simpa [Fits] using fits), Option.bind_some,
      scalar?_of_takesValue takes, asWritten]
  | .float x => exact feed?_float x takes ends
  | .text s => rw [chars, feed?_scan (scan?_encode s rest), step?_text_of_takesValue takes, asWritten]
  | .list [] =>
    obtain ⟨room, -⟩ := fits
    rw [chars, List.cons_append, feed?_scan rfl, step?, open?_of_takesValue takes (by omega), Option.bind_some,
      List.cons_append, feed?_scan rfl]
    rfl
  -- A list may close at once but not behind a comma, so its first item is read apart from the others.
  | .list (item :: items) =>
    obtain ⟨room, first, others⟩ := fits
    have text : chars (.list (item :: items)) ++ rest = '[' :: (item.chars ++ (itemChars items ++ ']' :: rest)) := by
      simp [chars]
    rw [Nat.sub_sub] at first others
    rw [text, feed?_scan rfl, step?, open?_of_takesValue takes (by omega), Option.bind_some,
      feed?_chars item ⟨.list [] :: r.stack, .valueOrClose⟩ _ rfl first (endsNumber_itemChars items rest), complete?,
      Option.bind_some, feed?_itemChars items _ _ rest others]
    rfl
  | .object [] =>
    obtain ⟨room, -⟩ := fits
    rw [chars, List.cons_append, feed?_scan rfl, step?, open?_of_takesValue takes (by omega), Option.bind_some,
      List.cons_append, feed?_scan rfl]
    rfl
  | .object ((name, j) :: members) =>
    obtain ⟨room, first, others⟩ := fits
    have text : chars (.object ((name, j) :: members)) ++ rest =
        '{' :: (Text.Quoted.encode name.toList ++ ':' :: (j.chars ++ (memberChars members ++ '}' :: rest))) := by
      simp [chars]
    rw [Nat.sub_sub] at first others
    rw [text, feed?_scan rfl, step?, open?_of_takesValue takes (by omega), Option.bind_some, feed?_name (.inr rfl),
      feed?_chars j ⟨.member [] name :: r.stack, .value⟩ _ rfl first (endsNumber_memberChars members rest), complete?,
      Option.bind_some, feed?_memberChars members _ _ rest others]
    rfl

/-- The items behind the first one are read up to the end of their list. -/
theorem feed?_itemChars (items : List Json) (done : List Json) (outer : List Frame) (rest : List Char)
    (fit : ItemsFit (depth - (outer.length + 1)) items) :
    feed? depth ⟨.list done :: outer, .commaOrClose⟩ (itemChars items ++ ']' :: rest) =
      (complete? (.list (done.reverse ++ itemsAsWritten items)) outer).bind fun r' => feed? depth r' rest := by
  match items with
  | [] =>
    rw [itemChars, List.nil_append, feed?_scan rfl, itemsAsWritten, List.append_nil]
    rfl
  | item :: items =>
    obtain ⟨first, others⟩ := fit
    have text : itemChars (item :: items) ++ ']' :: rest = ',' :: (item.chars ++ (itemChars items ++ ']' :: rest)) := by
      simp [itemChars]
    have comma : step? depth ⟨.list done :: outer, .commaOrClose⟩ .comma = some ⟨.list done :: outer, .value⟩ := rfl
    rw [text, feed?_scan rfl, comma, Option.bind_some,
      feed?_chars item ⟨.list done :: outer, .value⟩ _ rfl first (endsNumber_itemChars items rest), complete?,
      Option.bind_some, feed?_itemChars items _ _ rest others, itemsAsWritten, List.reverse_cons, List.append_assoc,
      List.singleton_append]

/-- The members behind the first one are read up to the end of their object. -/
theorem feed?_memberChars (members : List (String × Json)) (done : List (String × Json)) (outer : List Frame)
    (rest : List Char) (fit : MembersFit (depth - (outer.length + 1)) members) :
    feed? depth ⟨.object done :: outer, .commaOrClose⟩ (memberChars members ++ '}' :: rest) =
      (complete? (.object (done.reverse ++ membersAsWritten members)) outer).bind fun r' => feed? depth r' rest := by
  match members with
  | [] =>
    rw [memberChars, List.nil_append, feed?_scan rfl, membersAsWritten, List.append_nil]
    rfl
  | (name, j) :: members =>
    obtain ⟨first, others⟩ := fit
    have text : memberChars ((name, j) :: members) ++ '}' :: rest =
        ',' :: (Text.Quoted.encode name.toList ++ ':' :: (j.chars ++ (memberChars members ++ '}' :: rest))) := by
      simp [memberChars]
    have comma : step? depth ⟨.object done :: outer, .commaOrClose⟩ .comma = some ⟨.object done :: outer, .name⟩ := rfl
    rw [text, feed?_scan rfl, comma, Option.bind_some, feed?_name (.inl rfl),
      feed?_chars j ⟨.member done name :: outer, .value⟩ _ rfl first (endsNumber_memberChars members rest), complete?,
      Option.bind_some, feed?_memberChars members _ _ rest others, membersAsWritten, List.reverse_cons, List.append_assoc,
      List.singleton_append]

end

end Reading

/-- The text of a tree is read as the tree. -/
theorem ofChars?_chars {j : Json} (fits : j.Fits maxDepth) : ofChars? j.chars = some j.asWritten := by
  have read : Reading.feed? maxDepth .start (j.chars ++ []) = _ :=
    Reading.feed?_chars j .start [] rfl fits (by simp [EndsNumber])
  rw [List.append_nil] at read
  rw [ofChars?_eq_feed?, read, Reading.start, Reading.complete?, Option.bind_some, Reading.feed?_nil]
  rfl

theorem ofString?_render {j : Json} (fits : j.Fits maxDepth) : ofString? j.render = some j.asWritten := by
  rw [ofString?, render, String.toList_ofList, ofChars?_chars fits]

end Rollup.Json
