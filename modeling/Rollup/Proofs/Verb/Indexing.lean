import Rollup.Proofs.Verb.Parts

/-!
# What an index adds

An index rejects the events without its field and adds an index part to the keys of the others.  It
changes nothing else: the verbs behind it read the same event, and the other parts of the key keep
their slots.  So where the field is there, an event has the same key with and without the index once
index parts are dropped (`mergedKey?_insert_index`).
-/

namespace Rollup.Verb

open Document

/-! ## The other verbs -/

section Others

variable {before after : List Verb} {field name : String}

theorem filter_reduces_insert_index :
    (before ++ indexedBy field :: after).filter reduces = (before ++ after).filter reduces := by
  rw [List.filter_append, List.filter_append, List.filter_cons_of_neg]
  exact Bool.false_ne_true

theorem counts_insert_index : counts (before ++ indexedBy field :: after) = counts (before ++ after) := by
  rw [counts, counts, List.filterMap_append, List.filterMap_append, List.filterMap_cons_none]
  rfl

theorem takeWhile_cons_index :
    ((indexedBy field :: after).takeWhile fun v => v.field? ≠ some name) =
      indexedBy field :: after.takeWhile fun v => v.field? ≠ some name :=
  List.takeWhile_cons_of_pos (decide_eq_true (by nofun))

/-- An index owns no column, so the columns behind it have the same unique counts before them. -/
theorem countsBefore_insert_index (before after : List Verb) (field name : String) :
    countsBefore (before ++ indexedBy field :: after) name = countsBefore (before ++ after) name := by
  rw [countsBefore, countsBefore, List.takeWhile_append, List.takeWhile_append, takeWhile_cons_index]
  split
  · exact counts_insert_index
  · rfl

/-- Index parts take no slot. -/
theorem keySlot_insert_index (before after : List Verb) (field name : String) :
    keySlot (before ++ indexedBy field :: after) name = keySlot (before ++ after) name := by
  rw [keySlot, keySlot, List.takeWhile_append, List.takeWhile_append, takeWhile_cons_index]
  split
  · rw [List.countP_append, List.countP_append, List.countP_cons_of_neg]
    exact Bool.false_ne_true
  · rfl

theorem keyParts_insert_index (merged : List String) (before after : List Verb) (field : String) (d : Document) :
    keyParts merged (before ++ indexedBy field :: after) d = keyParts merged (before ++ after) d := by
  rw [keyParts_append, keyParts_append]
  rfl

end Others

/-! ## Rejection -/

/-- Whether a verb rejects an event depends on what it reads. -/
theorem rejected_map_congr {m m' : Mapping} {v : Verb} (unchained : v.isChained = false)
    (input : m.input = m'.input) (rejected : m.draft.rejected = m'.draft.rejected) :
    (map m v).draft.rejected = (map m' v).draft.rejected := by
  cases v with
  | countDocuments | sum _ _ | mean _ _ => exact rejected
  | only _ _ | brokenDownBy _ _ | countUniqueValues _ _ | indexedBy _ =>
    rw [map, map, input]
    split
    · exact rejected
    · rfl
  | transformDateFormat _ _ format =>
    cases format
    rw [map, map, input]
    split <;> exact rejected
  | dropIndex | uniqueTally _ => cases unchained

theorem rejected_foldl_congr {verbs : List Verb} (unchained : ∀ v ∈ verbs, v.isChained = false) {m m' : Mapping}
    (input : m.input = m'.input) (rejected : m.draft.rejected = m'.draft.rejected) :
    (verbs.foldl map m).draft.rejected = (verbs.foldl map m').draft.rejected := by
  induction verbs generalizing m m' with
  | nil => exact rejected
  | cons v rest ih =>
    rw [List.foldl_cons, List.foldl_cons]
    apply ih fun u mem => unchained u (List.mem_cons_of_mem _ mem)
    · rw [input_map, input_map, input]
    · exact rejected_map_congr (unchained v List.mem_cons_self) input rejected

theorem key?_eq_none_iff {verbs : List Verb} {d : Document} :
    (Stage.root verbs).key? d = none ↔ (verbs.foldl map ⟨{}, d⟩).draft.rejected = true := by
  rw [Stage.key?, Option.map_eq_none_iff]
  show (verbs.foldl map ⟨{}, d⟩).draft.finish? = none ↔ _
  rw [Draft.finish?]
  split <;> simp_all

section Keys

variable {before after : List Verb} {field : String} {d : Document}

/-- An index rejects the events without its field. -/
theorem rejected_map_index (m : Mapping) (field : String) :
    (map m (indexedBy field)).draft.rejected = (m.draft.rejected || (part? m.input field).isNone) := by
  rw [← map_scalar?, map]
  cases scalar? m.input field <;> simp [Draft.addIndexKey, Draft.reject]

/-- An event with the field of the index is accepted exactly if it is without the index. -/
theorem key?_insert_index_eq_none_iff (unchained : ∀ v ∈ after, v.isChained = false)
    (indexed : (Stage.root (before ++ after)).key? d ≠ none → part? (seen before d) field ≠ none) :
    (Stage.root (before ++ indexedBy field :: after)).key? d = none ↔
      (Stage.root (before ++ after)).key? d = none := by
  have input : (before.foldl map ⟨{}, d⟩).input = seen before d := input_foldl before _
  have own := rejected_map_index (before.foldl map ⟨{}, d⟩) field
  rw [input] at own
  cases found : part? (seen before d) field with
  | none =>
    have without : (Stage.root (before ++ after)).key? d = none := by
      by_contra accepted
      exact indexed accepted found
    rw [found, Option.isNone_none, Bool.or_true] at own
    refine iff_of_true ?_ without
    rw [key?_eq_none_iff, List.foldl_append, List.foldl_cons]
    exact rejected_foldl after _ own
  | some part =>
    rw [found, Option.isNone_some, Bool.or_false] at own
    rw [key?_eq_none_iff, key?_eq_none_iff, List.foldl_append, List.foldl_append, List.foldl_cons,
      rejected_foldl_congr unchained (input_map _ _) own]

/-- Once index parts are dropped, an event has the same key with the index as without it. -/
theorem mergedKey?_insert_index (unchained : ∀ v ∈ after, v.isChained = false)
    (indexed : (Stage.root (before ++ after)).key? d ≠ none → part? (seen before d) field ≠ none)
    (merged : List String) :
    mergedKey? (before ++ indexedBy field :: after) merged d = mergedKey? (before ++ after) merged d := by
  have accepted := key?_insert_index_eq_none_iff unchained indexed
  rw [mergedKey?, mergedKey?, keyParts_insert_index]
  cases own : (Stage.root (before ++ after)).key? d with
  | none => rw [accepted.2 own]
  | some key =>
    obtain ⟨key', own'⟩ := Option.ne_none_iff_exists'.1 (mt accepted.1 (by rw [own]; exact Option.some_ne_none key))
    rw [own', Option.map_some, Option.map_some]

theorem isSome_map?_insert_index (unchained : ∀ v ∈ after, v.isChained = false)
    (indexed : (Stage.root (before ++ after)).key? d ≠ none → part? (seen before d) field ≠ none) :
    ((Stage.root (before ++ indexedBy field :: after)).map? d).isSome =
      ((Stage.root (before ++ after)).map? d).isSome := by
  rw [← isSome_mergedKey? _ [], ← isSome_mergedKey? _ [], mergedKey?_insert_index unchained indexed]

end Keys

end Rollup.Verb
