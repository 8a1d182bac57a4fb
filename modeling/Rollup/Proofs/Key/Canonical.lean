import Rollup.Key.Basic
import Rollup.Proofs.Decimal.Layout
import Rollup.Proofs.Json.Tokens

/-!
# A key's text tells the key

The text of a key reads back part by part: a part ends where its text says so, whatever follows the comma or the
bracket behind it (`part_unique`).  Null, numbers and texts are told by the token at the front of the text
(`Denotes`); NaN and the infinities are the only parts that are no token, and their words differ.  So keys that
compare as equal are those with the same text, and work that is spread by the hash of the text keeps the events
of a key together (`Key.canonical_eq_iff`).
-/

namespace Rollup.Key

open Json Json.Token Decimal

variable {p q : KeyPart} {t : Token} {x y : Float} {r r' : List Char}

/-! ## Parts that are tokens -/

/-- The part that a token in the text of a key stands for. -/
inductive Denotes : Token → KeyPart → Prop
  | null : Denotes .null .null
  | int (n : Int64) : Denotes (.number (.ofInt n.toInt)) (.int n)
  | float {x : Float} (not_whole : wholeInt64? x = none) {lit : Literal} {m : Nat} {e : Int} {text : List Char}
      (decoded : Binary64.decode x = .finite lit.negative m e) (spells : lit.Spells text (floatLayout.spelled m e)) :
      Denotes (.number lit) (.float x not_whole)
  | text (s : String) : Denotes (.text s) (.text s)

/-- A token stands for one part. -/
theorem Denotes.unique (left : Denotes t p) (right : Denotes t q) : p = q := by
  cases left with
  | null =>
    cases right
    rfl
  | text s =>
    cases right
    rfl
  | int n =>
    generalize own : Token.number (.ofInt n.toInt) = t at right
    cases right with
    | null | text s => cases own
    | int k =>
      have same := congrArg Literal.toInt (Token.number.inj own)
      rw [Literal.toInt_ofInt, Literal.toInt_ofInt] at same
      rw [Int64.toInt_inj.1 same]
    | float not_whole decoded spells =>
      rw [← Token.number.inj own] at spells
      cases spells.decimal
  | @float x not_whole lit m e text decoded spells =>
    generalize own : Token.number lit = t at right
    cases right with
    | null | text s => cases own
    | int k =>
      rw [Token.number.inj own] at spells
      cases spells.decimal
    | @float y not_whole' lit' m' e' text' decoded' spells' =>
      cases own
      obtain ⟨rfl, rfl⟩ := Layout.eq_of_spelled (isMagnitude_of_decode decoded) (isMagnitude_of_decode decoded')
        (spells.number.symm.trans spells'.number)
      cases decode_injective (decoded.trans decoded'.symm)
      rfl

/-! ## Parts that are words -/

/-- NaN and the infinities. -/
def IsWord (x : Float) : Prop := Binary64.decode x = .nan ∨ ∃ negative, Binary64.decode x = .infinite negative

theorem chars_of_isWord (word : IsWord x) :
    (Binary64.decode x = .nan ∧ floatLayout.chars x = ['N', 'a', 'N']) ∨
      (Binary64.decode x = .infinite false ∧ floatLayout.chars x = ['i', 'n', 'f']) ∨
      (Binary64.decode x = .infinite true ∧ floatLayout.chars x = ['-', 'i', 'n', 'f']) := by
  rcases word with nan | ⟨_ | _, infinite⟩
  · exact .inl ⟨nan, by rw [Layout.chars, nan]; rfl⟩
  · exact .inr (.inl ⟨infinite, by rw [Layout.chars, infinite]; rfl⟩)
  · exact .inr (.inr ⟨infinite, by rw [Layout.chars, infinite]; rfl⟩)

/-- A word is no token. -/
theorem scan?_word (word : IsWord x) (r : List Char) : scan? (floatLayout.chars x ++ r) = none := by
  rcases chars_of_isWord word with ⟨_, own⟩ | ⟨_, own⟩ | ⟨_, own⟩ <;> rw [own] <;> rfl

/-- Different words differ in their letters. -/
theorem word_unique (word : IsWord x) (word' : IsWord y)
    (same : floatLayout.chars x ++ r = floatLayout.chars y ++ r') : x = y ∧ r = r' := by
  rcases chars_of_isWord word with ⟨left, own⟩ | ⟨left, own⟩ | ⟨left, own⟩ <;>
    rcases chars_of_isWord word' with ⟨right, own'⟩ | ⟨right, own'⟩ | ⟨right, own'⟩ <;>
    rw [own, own'] at same <;> simp at same
  all_goals exact ⟨decode_injective (left.trans right.symm), same⟩

/-! ## One part -/

/-- A part is a token in the text of a key, or it is a word. -/
theorem denotes_or_word (p : KeyPart) :
    (∃ t, Denotes t p ∧ ∀ r, EndsNumber r → scan? (partChars p ++ r) = some (t, r)) ∨
      ∃ x not_whole, p = .float x not_whole ∧ IsWord x := by
  cases p with
  | null => exact .inl ⟨_, .null, fun r _ => rfl⟩
  | text s => exact .inl ⟨_, .text s, fun r _ => scan?_encode s r⟩
  | int n =>
    refine .inl ⟨_, .int n, fun r ends => ?_⟩
    rw [partChars, ← Literal.chars_ofInt]
    exact scan?_chars (Literal.wellFormed_ofInt _) ends
  | float x not_whole =>
    cases decoded : Binary64.decode x with
    | nan => exact .inr ⟨x, not_whole, rfl, .inl decoded⟩
    | infinite negative => exact .inr ⟨x, not_whole, rfl, .inr ⟨negative, decoded⟩⟩
    | finite negative m e =>
      obtain ⟨lit, rfl, spells⟩ := Layout.exists_literal (l := floatLayout) rfl (.inl rfl) negative (e := e)
        (isMagnitude_of_decode decoded).small
      refine .inl ⟨_, .float not_whole decoded spells, fun r ends => ?_⟩
      rw [partChars, Layout.chars, decoded]
      exact spells.scan? ends

/-- A part reads back from the front of a text, with what follows it. -/
theorem part_unique (ends : EndsNumber r) (ends' : EndsNumber r') (same : partChars p ++ r = partChars q ++ r') :
    p = q ∧ r = r' := by
  rcases denotes_or_word p with ⟨t, denotes, read⟩ | ⟨x, not_whole, rfl, word⟩ <;>
    rcases denotes_or_word q with ⟨t', denotes', read'⟩ | ⟨y, not_whole', rfl, word'⟩
  · have tokens := (read r ends).symm.trans ((congrArg scan? same).trans (read' r' ends'))
    obtain ⟨rfl, rfl⟩ := Prod.mk.inj (Option.some.inj tokens)
    exact ⟨denotes.unique denotes', rfl⟩
  · cases (read r ends).symm.trans ((congrArg scan? same).trans (scan?_word word' r'))
  · cases (read' r' ends').symm.trans ((congrArg scan? same.symm).trans (scan?_word word r))
  · obtain ⟨rfl, rest⟩ := word_unique word word' same
    exact ⟨rfl, rest⟩

/-! ## All parts -/

/-- The text behind the first part of a key. -/
def tailChars (rest : List KeyPart) : List Char := rest.flatMap (fun q => ',' :: partChars q) ++ [']']

theorem tailChars_cons (p : KeyPart) (rest : List KeyPart) :
    tailChars (p :: rest) = ',' :: (partChars p ++ tailChars rest) := by
  simp [tailChars]

theorem chars_cons (p : KeyPart) (rest : List KeyPart) :
    Key.chars (p :: rest) = '[' :: (partChars p ++ tailChars rest) := by
  simp [Key.chars, tailChars]

theorem endsNumber_tailChars (rest : List KeyPart) : EndsNumber (tailChars rest) := by
  cases rest <;> simp [EndsNumber, tailChars]

/-- The text of a part is not a closing bracket. -/
theorem part_ne_close (rest : List KeyPart) : partChars p ++ tailChars rest ≠ [']'] := by
  intro close
  have closed : scan? [']'] = some (.closeList, []) := rfl
  rw [← close] at closed
  rcases denotes_or_word p with ⟨t, denotes, read⟩ | ⟨x, not_whole, rfl, word⟩
  · rw [read _ (endsNumber_tailChars rest)] at closed
    have empty := congrArg Prod.snd (Option.some.inj closed)
    simp [tailChars] at empty
  · cases (scan?_word word _).symm.trans closed

theorem tailChars_injective {ps qs : List KeyPart} (same : tailChars ps = tailChars qs) : ps = qs := by
  induction ps generalizing qs with
  | nil =>
    cases qs with
    | nil => rfl
    | cons q qs => simp [tailChars] at same
  | cons p ps ih =>
    cases qs with
    | nil => simp [tailChars] at same
    | cons q qs =>
      rw [tailChars_cons, tailChars_cons] at same
      obtain ⟨rfl, rest⟩ := part_unique (endsNumber_tailChars ps) (endsNumber_tailChars qs) (List.cons.inj same).2
      rw [ih rest]

theorem chars_injective {ps qs : List KeyPart} (same : Key.chars ps = Key.chars qs) : ps = qs := by
  cases ps with
  | nil =>
    cases qs with
    | nil => rfl
    | cons q qs =>
      rw [chars_cons] at same
      exact (part_ne_close qs (List.cons.inj same).2.symm).elim
  | cons p ps =>
    cases qs with
    | nil =>
      rw [chars_cons] at same
      exact (part_ne_close ps (List.cons.inj same).2).elim
    | cons q qs =>
      rw [chars_cons, chars_cons] at same
      obtain ⟨rfl, rest⟩ := part_unique (endsNumber_tailChars ps) (endsNumber_tailChars qs) (List.cons.inj same).2
      rw [tailChars_injective rest]

theorem canonical_injective {a b : Key} (same : a.canonical = b.canonical) : a = b := by
  have chars := congrArg String.toList same
  rw [canonical, canonical, String.toList_ofList, String.toList_ofList] at chars
  exact congrArg Key.mk (chars_injective chars)

/-- Keys are equal, as they compare and by their parts, exactly when their texts are equal.  So groups and scopes,
which are maps from keys, are addressed by the text, and the hash of the text agrees on equal keys. -/
theorem canonical_eq_iff (a b : Key) :
    (compare a b = .eq ↔ a.canonical = b.canonical) ∧ (a = b ↔ a.canonical = b.canonical) ∧
      (∀ {V : Type} (m : SortedMap Key V) (v : V),
        (m.insert a v).get? b = if a.canonical = b.canonical then some v else m.get? b) ∧
      (compare a b = .eq → a.stableHash = b.stableHash) := by
  have equal : compare a b = .eq ↔ a = b := Std.LawfulEqCmp.compare_eq_iff_eq
  have texts : a = b ↔ a.canonical = b.canonical := ⟨congrArg canonical, canonical_injective⟩
  refine ⟨equal.trans texts, texts, fun m v => ?_, fun compared => ?_⟩
  · simp only [SortedMap.get?_insert, ← texts, eq_comm]
  · rw [equal.1 compared]

end Rollup.Key
