import Rollup.Proofs.Stage.Totals

/-!
# Folds of documents that read the same

A fold reads certain totals and certain first values of its documents, and nothing else (`FoldsAlike`).  Lists of
documents that have these in common fold to the same document, but for the signs of zeros in sums
(`sameButSums_reduce?`).  The verbs of both folds act in step: none of them reads the column of a sum.
-/

namespace Rollup

open Document

/-- Values of a field are the same, or equal doubles in the column of a sum. -/
def SumsAlike (reduces : List Verb) (name : String) (v w : Value) : Prop :=
  v = w ∨ ∃ field x y, .sum field name ∈ reduces ∧ v = .float x ∧ w = .float y ∧ (x == y) = true

/-- Documents are the same, but for the signs of zeros in sums. -/
def SameButSums (reduces : List Verb) (d e : Document) : Prop :=
  SortedMap.Paired (SumsAlike reduces) d.entries e.entries

/-- Documents have in common all that a fold of them depends on. -/
structure FoldsAlike (reduces : List Verb) (docs docs' : List Document) : Prop where
  count : Count.total docs = Count.total docs'
  tally : ∀ name, .uniqueTally name ∈ reduces →
    roundToInt64 (Verb.total docs name) = roundToInt64 (Verb.total docs' name)
  sum : ∀ field name, .sum field name ∈ reduces → (Verb.total docs name == Verb.total docs' name) = true
  mean : ∀ field name, .mean field name ∈ reduces → Mean.added docs name = Mean.added docs' name
  breakdown : ∀ field name, .brokenDownBy field name ∈ reduces →
    docs.findSome? (·.get? name) = docs'.findSome? (·.get? name)
  state : ∀ field name, .countUniqueValues field name ∈ reduces →
    docs.findSome? (Mean.state? · name) = docs'.findSome? (Mean.state? · name)

/-- The columns of sums are neither the count nor the states. -/
theorem Counting.not_sum {reduces : List Verb} (counting : Counting reduces) (field : String) :
    .sum field Field.count ∉ reduces ∧ .sum field Field.intermediate ∉ reduces := by
  refine ⟨fun mem => ?_, fun mem => counting.apart.ne_intermediate mem rfl rfl⟩
  obtain ⟨rest, rfl⟩ := counting.head
  have nodup := counting.apart.nodup
  rw [List.filterMap_cons] at nodup
  rcases List.mem_cons.1 mem with same | mem
  · cases same
  · exact (List.nodup_cons.1 nodup).1 (List.mem_filterMap.2 ⟨_, mem, rfl⟩)

section Lockstep

variable {reduces : List Verb} {docs docs' : List Document} {d e : Document} {name : String}

namespace SameButSums

theorem refl (reduces : List Verb) (d : Document) : SameButSums reduces d d :=
  List.forall₂_same.2 fun _ _ => ⟨rfl, .inl rfl⟩

theorem insert {v w : Value} (same : SameButSums reduces d e) (alike : SumsAlike reduces name v w) :
    SameButSums reduces (d.insert name v) (e.insert name w) :=
  SortedMap.Paired.place same alike

theorem get?_eq (same : SameButSums reduces d e) (plain : ∀ field, .sum field name ∉ reduces) :
    d.get? name = e.get? name := by
  refine SortedMap.Paired.lookup_eq same fun v w alike => ?_
  rcases alike with rfl | ⟨field, x, y, mem, -⟩
  · rfl
  · exact absurd mem (plain field)

variable (counting : Counting reduces)

include counting

theorem insertIn (same : SameButSums reduces d e) (v : Value) :
    SameButSums reduces (Document.insertIn d Field.intermediate name v)
      (Document.insertIn e Field.intermediate name v) := by
  have states := same.get?_eq fun field => (counting.not_sum field).2
  rw [Document.insertIn, Document.insertIn, subOrEmpty, subOrEmpty, sub?_congr states]
  exact same.insert (.inl rfl)

theorem writePresence (same : SameButSums reduces d e) :
    SameButSums reduces (Verb.writePresence d name) (Verb.writePresence e name) := by
  have count := same.get?_eq fun field => (counting.not_sum field).1
  rw [Verb.writePresence_eq, Verb.writePresence_eq, whole_congr count]
  exact same.insert (.inl rfl)

/-- A verb keeps two folds in step. -/
theorem reduce (same : SameButSums reduces d e) (alike : FoldsAlike reduces docs docs') {v : Verb}
    (mem : v ∈ reduces) : SameButSums reduces (Verb.reduce docs d v) (Verb.reduce docs' e v) := by
  -- What a verb reads in the documents is alike by assumption; in the fold it reads no column of a sum.
  cases v with
  | countDocuments =>
    rw [Verb.reduce, Verb.reduce, alike.count]
    exact same.insert (.inl rfl)
  | brokenDownBy field name =>
    rw [Verb.reduce, Verb.reduce, alike.breakdown field name mem]
    split
    · exact same.insert (.inl rfl)
    · exact same
  | sum field name => exact same.insert (.inr ⟨field, _, _, mem, rfl, rfl, alike.sum field name mem⟩)
  | uniqueTally name =>
    rw [Verb.reduce, Verb.reduce, alike.tally name mem]
    exact same.insert (.inl rfl)
  | mean field name =>
    show SameButSums reduces (Mean.write d name (Mean.added docs name).1 (Mean.added docs name).2)
      (Mean.write e name (Mean.added docs' name).1 (Mean.added docs' name).2)
    rw [alike.mean field name mem]
    exact (same.insert (.inl rfl)).insertIn counting _
  | countUniqueValues field name =>
    rw [Verb.reduce, Verb.reduce, alike.state field name mem]
    split
    · exact (same.writePresence counting).insertIn counting _
    · exact same.writePresence counting
  | only _ _ | indexedBy _ | transformDateFormat _ _ _ | dropIndex => exact same

theorem foldl_reduce (alike : FoldsAlike reduces docs docs') {verbs : List Verb} (listed : verbs ⊆ reduces)
    (same : SameButSums reduces d e) :
    SameButSums reduces (verbs.foldl (Verb.reduce docs) d) (verbs.foldl (Verb.reduce docs') e) := by
  induction verbs generalizing d e with
  | nil => exact same
  | cons v rest ih =>
    rw [List.cons_subset] at listed
    exact ih listed.2 (same.reduce counting alike listed.1)

end SameButSums

/-- Documents that fold alike fold to the same document, but for the signs of zeros in sums. -/
theorem sameButSums_reduce? {stage : Stage} (counting : Counting stage.reduces)
    (alike : FoldsAlike stage.reduces docs docs') (folded : stage.reduce? docs = some d)
    (folded' : stage.reduce? docs' = some e) : SameButSums stage.reduces d e := by
  obtain ⟨-, rfl⟩ := reduce?_eq folded
  obtain ⟨-, rfl⟩ := reduce?_eq folded'
  exact SameButSums.foldl_reduce counting alike (List.Subset.refl _) .nil

end Lockstep

/-! ## Totals in common -/

/-- Documents have the same totals and the same first values. -/
structure SameTotals (reduces : List Verb) (docs docs' : List Document) : Prop where
  linear : ∀ field, Linear reduces field → wholeSum docs field = wholeSum docs' field
  sum : ∀ field name, .sum field name ∈ reduces → wholeSum docs name = wholeSum docs' name
  value : ∀ field name, .mean field name ∈ reduces →
    wholeSum (Mean.states docs name) Field.meanValue = wholeSum (Mean.states docs' name) Field.meanValue
  number : ∀ field name, .mean field name ∈ reduces →
    wholeSum (Mean.states docs name) Field.meanCount = wholeSum (Mean.states docs' name) Field.meanCount
  breakdown : ∀ field name, .brokenDownBy field name ∈ reduces →
    docs.findSome? (·.get? name) = docs'.findSome? (·.get? name)
  state : ∀ field name, .countUniqueValues field name ∈ reduces →
    docs.findSome? (Mean.state? · name) = docs'.findSome? (Mean.state? · name)

namespace SameTotals

variable {reduces : List Verb} {docs docs' : List Document} {out : Document} (same : SameTotals reduces docs docs')

include same

theorem totals (totals : Totals reduces docs out) : Totals reduces docs' out where
  linear field mem := (totals.linear field mem).trans (same.linear field mem)
  sum field name mem := by
    obtain ⟨x, found, own⟩ := totals.sum field name mem
    exact ⟨x, found, same.sum field name mem ▸ own⟩
  mean field name mem := by
    obtain ⟨x, c, recorded, value, number⟩ := totals.mean field name mem
    exact ⟨x, c, recorded, same.value field name mem ▸ value, number.trans (same.number field name mem)⟩

theorem firsts (firsts : Firsts reduces docs out) : Firsts reduces docs' out where
  breakdown field name mem := (firsts.breakdown field name mem).trans (same.breakdown field name mem)
  state field name mem := (firsts.state field name mem).trans (same.state field name mem)

/-- Where doubles are exact, documents with the same totals fold alike. -/
theorem foldsAlike {slot slot' : String → Nat} {allowed allowed' : String → Value → Prop}
    (readable : ∀ d ∈ docs, Readable slot allowed reduces d)
    (readable' : ∀ d ∈ docs', Readable slot' allowed' reduces d) (bounded : Exact reduces docs)
    (bounded' : Exact reduces docs') : FoldsAlike reduces docs docs' where
  count := by
    have total := Count.toInt_total (fun d mem => (readable d mem).count) (bounded.linear _ (.inl rfl))
    have total' := Count.toInt_total (fun d mem => (readable' d mem).count) (bounded'.linear _ (.inl rfl))
    rw [← Int64.toInt_inj, total, total', same.linear _ (.inl rfl)]
  tally name mem := by
    have within := bounded.linear name (.inr mem)
    have within' := bounded'.linear name (.inr mem)
    have wholes := isWhole_of_ints (fun d member => (readable d member).tally name mem) within
    have wholes' := isWhole_of_ints (fun d member => (readable' d member).tally name mem) within'
    rw [(Verb.isWhole_total wholes within).roundToInt64, (Verb.isWhole_total wholes' within').roundToInt64,
      same.linear name (.inr mem)]
  sum field name mem := by
    obtain ⟨wholes, within⟩ := bounded.sum field name mem
    obtain ⟨wholes', within'⟩ := bounded'.sum field name mem
    have total := Verb.isWhole_total wholes within
    rw [same.sum field name mem] at total
    exact total.beq (Verb.isWhole_total wholes' within')
  mean field name mem := by
    obtain ⟨wholes, values, numbers⟩ := bounded.mean field name mem
    obtain ⟨wholes', values', numbers'⟩ := bounded'.mean field name mem
    obtain ⟨value, number⟩ := Mean.added_eq wholes values numbers
    obtain ⟨value', number'⟩ := Mean.added_eq wholes' values' numbers'
    rw [same.value field name mem] at value
    rw [same.number field name mem] at number
    exact Prod.ext (value.eq value') (Int64.toInt_inj.1 (number.trans number'.symm))
  breakdown := same.breakdown
  state := same.state

end SameTotals

end Rollup
