import Rollup.Pipeline
import Rollup.Proofs.Verb.Parts

/-!
# Where filters and indexes stand

A filter decides on one field and changes nothing of what it lets through.  An index decides on one field,
too, and adds a part to a region of the key that only indexes and their dropping touch.  So both may stand
anywhere among the other verbs (`alike_of_moved`), as long as they do not pass the verb that writes the
field that they read, and an index does not pass another index.

That dropping is one of the other verbs only in chained stages: among the verbs of the root an index must
not pass it either (`different_behind_drop`).
-/

namespace Rollup

namespace Verb

/-- The field that a verb writes in the event, for the verbs behind it to read. -/
def dates? : Verb → Option String
  | transformDateFormat _ name _ => some name
  | _ => none

/-- A filter or an index may change places with another verb. -/
inductive Passes : Verb → Verb → Prop
  | only {field value : String} {u : Verb} (undated : u.dates? ≠ some field) : Passes (only field value) u
  | indexedBy {field : String} {u : Verb} (undated : u.dates? ≠ some field) (unindexed : u.isIndex = false)
      (undropped : u ≠ dropIndex) : Passes (indexedBy field) u

section Passing

variable {u v : Verb} {field : String}

/-- A verb changes one field of the event at most. -/
theorem get?_dated (undated : u.dates? ≠ some field) (d : Document) : (dated d u).get? field = d.get? field := by
  cases u with
  | transformDateFormat source name format =>
    cases format
    rw [dated]
    split
    · exact Document.get?_insert_of_ne d _ fun same => undated (by rw [same]; rfl)
    · rfl
  | countDocuments | only _ _ | brokenDownBy _ _ | sum _ _ | mean _ _ | countUniqueValues _ _ | indexedBy _
  | dropIndex | uniqueTally _ => rfl

/-- What a verb does does not depend on whether the document is rejected already. -/
theorem map_reject (m : Mapping) (u : Verb) :
    map ⟨m.draft.reject, m.input⟩ u = ⟨(map m u).draft.reject, (map m u).input⟩ := by
  cases u with
  | countDocuments | sum _ _ | mean _ _ | dropIndex => rfl
  | only _ _ | brokenDownBy _ _ | countUniqueValues _ _ | indexedBy _ | uniqueTally _ =>
    simp only [map]
    split <;> rfl
  | transformDateFormat _ _ format =>
    cases format
    simp only [map]
    split <;> rfl

/-- No other verb reads or changes the index parts. -/
theorem map_addIndexKey (m : Mapping) (part : KeyPart) (unindexed : u.isIndex = false) (undropped : u ≠ dropIndex) :
    map ⟨m.draft.addIndexKey part, m.input⟩ u = ⟨(map m u).draft.addIndexKey part, (map m u).input⟩ := by
  cases u with
  | countDocuments | sum _ _ | mean _ _ => rfl
  | only _ _ | brokenDownBy _ _ | countUniqueValues _ _ | uniqueTally _ =>
    simp only [map, Draft.addIndexKey]
    split <;> rfl
  | transformDateFormat _ _ format =>
    cases format
    simp only [map]
    split <;> rfl
  | indexedBy _ => cases unindexed
  | dropIndex => exact absurd rfl undropped

theorem map_map_of_passes (passes : v.Passes u) (m : Mapping) : map (map m v) u = map (map m u) v := by
  have input : (map m u).input = dated m.input u := input_map m u
  cases passes with
  | @only field value _ undated =>
    -- The filter reads the same field before the other verb and behind it.
    rw [map, map, input, get?_dated undated]
    split
    · rfl
    · exact (map_reject m u).trans (by rw [input])
  | @indexedBy field _ undated unindexed undropped =>
    have same : scalar? (dated m.input u) field = scalar? m.input field := by
      rw [scalar?, scalar?, get?_dated undated]
    rw [map, map, input, same]
    cases scalar? m.input field with
    | none => exact (map_reject m u).trans (by rw [input])
    | some own => exact (map_addIndexKey m own.1 unindexed undropped).trans (by rw [input])

/-- A verb that passes others maps alike in front of them and behind them. -/
theorem foldl_map_of_passes {between : List Verb} (passes : ∀ u ∈ between, v.Passes u) (m : Mapping) :
    between.foldl map (map m v) = map (between.foldl map m) v := by
  induction between generalizing m with
  | nil => rfl
  | cons u rest ih =>
    rw [List.foldl_cons, map_map_of_passes (passes u List.mem_cons_self),
      ih fun w mem => passes w (List.mem_cons_of_mem u mem)]
    rfl

theorem Passes.unreduced (passes : v.Passes u) : v.reduces = false := by
  cases passes <;> rfl

theorem Passes.uncounted (passes : v.Passes u) : v.counted? = none := by
  cases passes <;> rfl

end Passing

end Verb

open Verb

variable {v : Verb} {before between after : List Verb}

/-- The root of verbs maps alike wherever among the others a verb stands that passes them. -/
theorem Stage.map?_root_of_passes (passes : ∀ u ∈ between, v.Passes u) (d : Document) :
    (Stage.root (before ++ v :: (between ++ after))).map? d = (Stage.root (before ++ between ++ v :: after)).map? d := by
  show (List.foldl map ⟨{}, d⟩ (before ++ v :: (between ++ after))).draft.finish? =
    (List.foldl map ⟨{}, d⟩ (before ++ between ++ v :: after)).draft.finish?
  simp only [List.foldl_append, List.foldl_cons, foldl_map_of_passes passes]

namespace Pipeline

theorem composition_insert (other : v ≠ .countDocuments) (before after : List Verb) :
    composition (before ++ v :: after) =
      (.countDocuments :: before.filter (· ≠ .countDocuments)) ++ v :: after.filter (· ≠ .countDocuments) := by
  rw [composition, List.filter_append, List.filter_cons, if_pos (decide_eq_true other), List.cons_append]

/-- Only unique counts have stages that merge their buckets. -/
theorem tallyStages_insert (uncounted : v.counted? = none) (reduces before after : List Verb) :
    tallyStages reduces (before ++ v :: after) = tallyStages reduces (before ++ after) := by
  induction before generalizing reduces with
  | nil => cases v <;> first | rfl | cases uncounted
  | cons u rest ih =>
    cases u with
    | countUniqueValues field name => exact congrArg (_ :: ·) (ih _)
    | countDocuments | only _ _ | brokenDownBy _ _ | sum _ _ | mean _ _ | indexedBy _
    | transformDateFormat _ _ _ | dropIndex | uniqueTally _ => exact ih reduces

theorem tallyStages_move (uncounted : v.counted? = none) (reduces before between after : List Verb) :
    tallyStages reduces (before ++ v :: (between ++ after)) = tallyStages reduces (before ++ between ++ v :: after) := by
  rw [tallyStages_insert uncounted, tallyStages_insert uncounted, List.append_assoc]

theorem indexStages_move (v : Verb) (reduces before between after : List Verb) :
    indexStages reduces (before ++ v :: (between ++ after)) = indexStages reduces (before ++ between ++ v :: after) := by
  have same : (before ++ v :: (between ++ after)).any isIndex = (before ++ between ++ v :: after).any isIndex := by
    simp only [List.any_append, List.any_cons, Bool.or_left_comm, Bool.or_assoc]
  rw [indexStages, indexStages, same]

/-- Where filters and indexes stand does not matter.  Moving a filter, or an index that passes neither another
index nor a verb that drops index parts, without passing a verb that writes the field that it reads, changes
neither what the root makes of any document, rejected ones included, nor what it folds, nor the stages behind
it. -/
theorem alike_of_moved (before after : List Verb) (passes : ∀ u ∈ between, v.Passes u) :
    let p := ofVerbs (before ++ v :: (between ++ after))
    let q := ofVerbs (before ++ between ++ v :: after)
    (∀ d, p.root.map? d = q.root.map? d) ∧ p.root.reduces = q.root.reduces ∧ p.chain = q.chain := by
  intro p q
  cases nonempty : between with
  | nil =>
    have same : p = q := by simp only [p, q, nonempty, List.nil_append, List.append_nil]
    rw [same]
    exact ⟨fun _ => rfl, rfl, rfl⟩
  | cons u rest =>
    have first : v.Passes u := passes u (nonempty ▸ List.mem_cons_self)
    have other : v ≠ .countDocuments := fun same => Bool.noConfusion (same ▸ first.unreduced)
    have others : ∀ u ∈ between.filter (· ≠ .countDocuments), v.Passes u :=
      fun u mem => passes u (List.mem_of_mem_filter mem)
    -- Counting comes first in both compositions, and the verb moves between the same others.
    obtain ⟨xs, ys, zs, passed, verbs, verbs'⟩ : ∃ xs ys zs, (∀ u ∈ ys, v.Passes u) ∧
        composition (before ++ v :: (between ++ after)) = xs ++ v :: (ys ++ zs) ∧
        composition (before ++ between ++ v :: after) = xs ++ ys ++ v :: zs := by
      refine ⟨_, _, _, others, (composition_insert other _ _).trans (by rw [List.filter_append]),
        (composition_insert other _ _).trans (by rw [List.filter_append, ← List.cons_append])⟩
    have reduces : (xs ++ v :: (ys ++ zs)).filter Verb.reduces = (xs ++ ys ++ v :: zs).filter Verb.reduces := by
      simp only [List.filter_append, List.filter_cons, first.unreduced, Bool.false_eq_true, if_false,
        List.append_assoc]
    simp only [p, q, ofVerbs, verbs, verbs']
    refine ⟨Stage.map?_root_of_passes passed, reduces, ?_⟩
    rw [Stage.root, Stage.root, reduces, indexStages_move, tallyStages_move first.uncounted]

/-- A filter moves to the end, and an index in front of a breakdown. -/
theorem alike_of_moved_dated :
    let filter : Verb := .only "a" "x"
    let index : Verb := .indexedBy "day"
    let date : Verb := .transformDateFormat "on" "day" .days
    let breakdown : Verb := .brokenDownBy "a" "A"
    let count : Verb := .countUniqueValues "u" "U"
    let p := ofVerbs [filter, date, breakdown, index, count]
    let q := ofVerbs [date, breakdown, index, count, filter]
    let r := ofVerbs [filter, date, index, breakdown, count]
    let d : Document := ⟨[("a", .text "x"), ("on", .text "1970-01-03"), ("u", .int 7)]⟩
    (p.root.map? d).map Prod.fst = some ⟨[.int 2, .text "x", .int 7, .int 1]⟩ ∧
      p.root.map? d = q.root.map? d ∧ p.root.map? ⟨[]⟩ = none ∧ q.root.map? ⟨[]⟩ = none ∧
      r.root.map? d = p.root.map? d ∧ p.chain.length = 2 ∧ p.chain = q.chain ∧ r.chain = p.chain := by
  intro filter index date breakdown count p q r d
  have filterPasses : ∀ u ∈ [date, breakdown, index, count], filter.Passes u := fun u mem => by
    simp only [List.mem_cons, List.not_mem_nil, or_false] at mem
    rcases mem with rfl | rfl | rfl | rfl <;> exact .only (by decide)
  have indexPasses : ∀ u ∈ [breakdown], index.Passes u := fun u mem => by
    rw [List.mem_singleton.1 mem]
    exact .indexedBy (by decide) rfl nofun
  obtain ⟨maps, -, chain⟩ := alike_of_moved [] [] filterPasses
  obtain ⟨maps', -, chain'⟩ := alike_of_moved [filter, date] [count] indexPasses
  have refused : p.root.map? ⟨[]⟩ = none := by cbv
  exact ⟨by cbv, maps d, refused, (maps ⟨[]⟩).symm.trans refused, maps' d, rfl, chain, chain'⟩

/-- An index that passes a verb dropping index parts changes the keys. -/
theorem different_behind_drop :
    let d : Document := ⟨[("i", .int 1)]⟩
    let p := ofVerbs [.indexedBy "i", .dropIndex]
    let q := ofVerbs [.dropIndex, .indexedBy "i"]
    Verb.dropIndex.dates? ≠ some "i" ∧ Verb.dropIndex.isIndex = false ∧
      (p.root.map? d).map Prod.fst = some ⟨[]⟩ ∧ (q.root.map? d).map Prod.fst = some ⟨[.int 1, .int 1]⟩ ∧
      p.root.map? d ≠ q.root.map? d := by
  intro d p q
  have key : (p.root.map? d).map Prod.fst = some ⟨[]⟩ := by cbv
  have key' : (q.root.map? d).map Prod.fst = some ⟨[.int 1, .int 1]⟩ := by cbv
  refine ⟨by decide, rfl, key, key', fun same => ?_⟩
  rw [same, key'] at key
  cases key

end Pipeline

end Rollup
