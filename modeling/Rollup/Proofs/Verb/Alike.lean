import Rollup.Proofs.Binary64.Canonical
import Rollup.Proofs.Verb.Mapping

/-!
# Equal documents

Documents compare as their values do, so equal documents may differ in the signs of zeros.  Verbs
that are not chained read the fields of an event as key parts only, and a zero of either sign is the
part of the whole number zero.  So equal events have one key (`key?_of_same`).
-/

namespace Rollup

/-! ## Equal doubles -/

section Floats

open Float.Model

theorem unpack_of_beq {x y : Float} (equal : (x == y) = true) :
    (∃ s t, x.toModel.unpack = .zero s ∧ y.toModel.unpack = .zero t) ∨
      x.toModel.unpack = y.toModel.unpack := by
  have compared : x.toModel.unpack.compare y.toModel.unpack = some .eq := by
    have beq : (x.toModel.unpack.compare y.toModel.unpack == some .eq) = true := equal
    simpa using beq
  generalize x.toModel.unpack = u at compared
  generalize y.toModel.unpack = v at compared
  cases u with
  | notANumber => simp [UnpackedFloat.compare] at compared
  | infinity s =>
    cases v with
    | infinity t => cases s <;> cases t <;> simp_all [UnpackedFloat.compare]
    | notANumber | zero _ | finite _ _ _ _ => cases s <;> simp [UnpackedFloat.compare] at compared
  | zero s =>
    cases v with
    | zero t => exact .inl ⟨s, t, rfl, rfl⟩
    | infinity t | finite t _ _ _ => cases t <;> simp [UnpackedFloat.compare] at compared
    | notANumber => simp [UnpackedFloat.compare] at compared
  | finite s m e _ =>
    cases v with
    | finite t n k _ =>
      have values : s = t ∧ e = k ∧ m = n := by
        cases s <;> cases t <;>
          simp [UnpackedFloat.compare, Ordering.then_eq_eq] at compared <;> simp [compared]
      obtain ⟨rfl, rfl, rfl⟩ := values
      exact .inr rfl
    | infinity t => cases t <;> cases s <;> simp [UnpackedFloat.compare] at compared
    | zero t | notANumber => cases s <;> simp [UnpackedFloat.compare] at compared

theorem wholeInt64?_of_zero {x : Float} {s : UnpackedFloat.Sign} (zero : x.toModel.unpack = .zero s) :
    wholeInt64? x = some 0 := by
  have magnitude : ∀ e, Binary64.isWholeMagnitude 0 e = true ∧ Binary64.floorMagnitude 0 e = 0 := by
    intro e
    cases e <;> simp [Binary64.isWholeMagnitude, Binary64.floorMagnitude]
  rw [wholeInt64?, decode_eq_ofUnpacked, zero, ofUnpacked, Binary64.whole?, if_pos (magnitude _).1,
    (magnitude _).2]
  cases s <;> rfl

/-- Equal doubles are the same, but for the signs of zeros. -/
theorem eq_or_zero_of_beq {x y : Float} (equal : (x == y) = true) :
    x = y ∨ (wholeInt64? x = some 0 ∧ wholeInt64? y = some 0) := by
  rcases unpack_of_beq equal with ⟨s, t, zero, zero'⟩ | same
  · exact .inr ⟨wholeInt64?_of_zero zero, wholeInt64?_of_zero zero'⟩
  · exact .inl (eq_of_unpack same)

end Floats

/-! ## Equal values -/

theorem KeyPart.ofFloat_of_whole {x : Float} {n : Int64} (whole : wholeInt64? x = some n) :
    ofFloat x = .int n := by
  unfold ofFloat
  split
  · next found => rw [Option.some.inj (found.symm.trans whole)]
  · next none =>
    rw [none] at whole
    cases whole

/-- The text that a key part is. -/
def KeyPart.text? : KeyPart → Option String
  | .text s => some s
  | _ => none

/-- Equal values make one key part. -/
theorem KeyPart.ofValue?_of_alike {v w : Value} (same : v.alike w = true) : ofValue? v = ofValue? w := by
  -- Values of different kinds are never equal.
  cases v <;> cases w <;> first | (simp [Value.alike] at same; done) | skip
  case float.float x y =>
    rw [Value.alike] at same
    rcases eq_or_zero_of_beq same with rfl | ⟨zero, zero'⟩
    · rfl
    · rw [ofValue?, ofValue?, ofFloat_of_whole zero, ofFloat_of_whole zero']
  case int.int m n =>
    rw [show m = n by simpa [Value.alike] using same]
  case text.text s t =>
    rw [show s = t by simpa [Value.alike] using same]
  all_goals rfl

namespace Document

/-- The key part of a field. -/
def part? (d : Document) (field : String) : Option KeyPart := (d.get? field).bind KeyPart.ofValue?

/-- Documents that have the same key parts. -/
def AlikeParts (d e : Document) : Prop := ∀ field, part? d field = part? e field

theorem alikeParts_of_alike {d e : Document} (same : d.alike e = true) : AlikeParts d e := by
  obtain ⟨xs⟩ := d
  obtain ⟨ys⟩ := e
  intro field
  show (SortedMap.lookup field xs).bind _ = (SortedMap.lookup field ys).bind _
  have fields : Value.fieldsAlike xs ys = true := same
  clear same
  induction xs generalizing ys with
  | nil =>
    cases ys with
    | nil => rfl
    | cons _ _ => simp [Value.fieldsAlike] at fields
  | cons first rest ih =>
    cases ys with
    | nil => simp [Value.fieldsAlike] at fields
    | cons first' rest' =>
      obtain ⟨name, v⟩ := first
      obtain ⟨name', w⟩ := first'
      rw [Value.fieldsAlike, Bool.and_eq_true, Bool.and_eq_true, beq_iff_eq] at fields
      obtain ⟨⟨rfl, own⟩, later⟩ := fields
      rw [SortedMap.lookup, SortedMap.lookup]
      split
      · exact KeyPart.ofValue?_of_alike own
      · exact ih rest' later

theorem AlikeParts.insert {d e : Document} (same : AlikeParts d e) (name : String) (value : Value) :
    AlikeParts (d.insert name value) (e.insert name value) := by
  intro field
  have own := same field
  rw [part?, part?] at own ⊢
  rw [get?_insert, get?_insert]
  split
  · rfl
  · exact own

/-- A field holds a text if its key part is one. -/
theorem AlikeParts.text {d e : Document} (same : AlikeParts d e) (field : String) :
    (d.get? field).bind Value.text? = (e.get? field).bind Value.text? := by
  have own := same field
  rw [part?, part?] at own
  have text : ∀ v : Value, v.text? = (KeyPart.ofValue? v).bind KeyPart.text? := by
    intro v
    cases v with
    | float x =>
      show none = (KeyPart.ofFloat x).text?
      unfold KeyPart.ofFloat
      split <;> rfl
    | null | bool _ | int _ | text _ | list _ | map _ => rfl
  rw [funext text, ← Option.bind_assoc, ← Option.bind_assoc, own]

end Document

/-! ## Equal events -/

namespace Verb

open Document

theorem map_scalar? (d : Document) (field : String) : (scalar? d field).map Prod.fst = part? d field := by
  rw [scalar?, part?]
  cases d.get? field with
  | none => rfl
  | some value =>
    simp only [Option.bind_eq_bind, Option.bind_some, Option.pure_def]
    cases KeyPart.ofValue? value <;> rfl

theorem days?_of_alikeParts {d e : Document} (same : AlikeParts d e) (field : String) :
    days? d field = days? e field := by
  have text := same.text field
  simp only [days?, Option.bind_eq_bind, ← Option.bind_assoc] at text ⊢
  rw [text]

/-- Documents with the same key parts have a scalar in the same fields, with the same part. -/
theorem scalar?_cases_of_alikeParts {d e : Document} (same : AlikeParts d e) (field : String) :
    (scalar? d field = none ∧ scalar? e field = none) ∨
      ∃ part value value', scalar? d field = some (part, value) ∧ scalar? e field = some (part, value') := by
  have own : (scalar? d field).map Prod.fst = (scalar? e field).map Prod.fst := by
    rw [map_scalar?, map_scalar?, same]
  cases first : scalar? d field with
  | none => exact .inl ⟨rfl, by simpa [first] using own.symm⟩
  | some scalar =>
    right
    cases second : scalar? e field with
    | none => simp [first, second] at own
    | some scalar' =>
      obtain ⟨part, value⟩ := scalar
      obtain ⟨part', value'⟩ := scalar'
      obtain rfl : part = part' := by simpa [first, second] using own
      exact ⟨part, value, value', rfl, rfl⟩

/-- Two mappings whose drafts have the same key so far, and will read the same key parts. -/
structure SameKey (m m' : Mapping) : Prop where
  rejected : m.draft.rejected = m'.draft.rejected
  index : m.draft.index = m'.draft.index
  normal : m.draft.normal = m'.draft.normal
  input : AlikeParts m.input m'.input

theorem SameKey.map {m m' : Mapping} (same : SameKey m m') {v : Verb} (unchained : v.isChained = false) :
    SameKey (map m v) (map m' v) := by
  -- Only three verbs look at the event; they see the same part of it, or none.
  obtain ⟨rejected, index, normal, input⟩ := same
  cases v with
  | countDocuments | sum _ _ | mean _ _ => exact ⟨rejected, index, normal, input⟩
  | only field value =>
    rw [Verb.map, Verb.map, input.text field]
    split
    · exact ⟨rejected, index, normal, input⟩
    · exact ⟨rfl, index, normal, input⟩
  | brokenDownBy field name | countUniqueValues field name =>
    rw [Verb.map, Verb.map]
    rcases scalar?_cases_of_alikeParts input field with ⟨first, second⟩ | ⟨part, value, value', first, second⟩
    · rw [first, second]
      exact ⟨rfl, index, normal, input⟩
    · rw [first, second]
      exact ⟨rejected, index, congrArg (· ++ [part]) normal, input⟩
  | indexedBy field =>
    rw [Verb.map, Verb.map]
    rcases scalar?_cases_of_alikeParts input field with ⟨first, second⟩ | ⟨part, value, value', first, second⟩
    · rw [first, second]
      exact ⟨rfl, index, normal, input⟩
    · rw [first, second]
      exact ⟨rejected, congrArg (· ++ [part]) index, normal, input⟩
  | transformDateFormat field name format =>
    cases format
    rw [Verb.map, Verb.map, days?_of_alikeParts input field]
    split
    · exact ⟨rejected, index, normal, input.insert name _⟩
    · exact ⟨rejected, index, normal, input⟩
  | dropIndex | uniqueTally _ => cases unchained

theorem SameKey.foldl {verbs : List Verb} (unchained : ∀ v ∈ verbs, v.isChained = false) {m m' : Mapping}
    (same : SameKey m m') : SameKey (verbs.foldl Verb.map m) (verbs.foldl Verb.map m') := by
  induction verbs generalizing m m' with
  | nil => exact same
  | cons v rest ih =>
    exact ih (fun u mem => unchained u (List.mem_cons_of_mem _ mem))
      (same.map (unchained v List.mem_cons_self))

theorem SameKey.finish? {m m' : Mapping} (same : SameKey m m') :
    m.draft.finish?.map Prod.fst = m'.draft.finish?.map Prod.fst := by
  rw [Draft.finish?, Draft.finish?, Draft.parts, Draft.parts, Draft.marker, Draft.marker, same.rejected,
    same.index, same.normal]
  split <;> rfl

end Verb

/-- The key of the bucket that a document belongs to. -/
def Stage.key? (stage : Stage) (d : Document) : Option Key := (stage.map? d).map Prod.fst

/-- Two documents that are the same, or equal as documents compare. -/
def Document.Same (d e : Document) : Prop := d = e ∨ d.alike e = true

/-- Equal events belong to one bucket. -/
theorem Stage.key?_of_same {verbs : List Verb} (unchained : ∀ v ∈ verbs, v.isChained = false)
    {d e : Document} (same : Document.Same d e) : (Stage.root verbs).key? d = (Stage.root verbs).key? e := by
  rcases same with rfl | same
  · rfl
  · have start : Verb.SameKey ⟨{}, d⟩ ⟨{}, e⟩ := ⟨rfl, rfl, rfl, Document.alikeParts_of_alike same⟩
    exact (start.foldl unchained).finish?

end Rollup
