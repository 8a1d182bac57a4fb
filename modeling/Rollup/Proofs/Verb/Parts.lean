import Rollup.Proofs.Stage.Routing
import Rollup.Proofs.Verb.Alike

/-!
# What a key tells of an event

The normal parts of an event's key are those of its breakdowns and unique counts, each read from the
event as the dates before it have left it (`normal_foldl`).  Behind the root, the parts of unique
counts are cleared one after the other.  What was cleared is lost for good, and nothing else: of two
events in one bucket of the last stage, an earlier key was the same exactly if the parts of the
unique counts cleared since are (`keyParts_eq_iff`).
-/

namespace Rollup

open Document

namespace Verb

/-- The event that the next verb reads; only dates change it. -/
def dated (d : Document) : Verb → Document
  | transformDateFormat field name .days =>
    match days? d field with
    | some days => d.insert name (.int (Int64.ofInt days))
    | none => d
  | _ => d

/-- The event that the verbs behind others read. -/
def seen (verbs : List Verb) (d : Document) : Document := verbs.foldl dated d

theorem input_map (m : Mapping) (v : Verb) : (map m v).input = dated m.input v := by
  cases v with
  | countDocuments | sum _ _ | mean _ _ | dropIndex => rfl
  | only _ _ | brokenDownBy _ _ | countUniqueValues _ _ | indexedBy _ | uniqueTally _ =>
    rw [map]
    split <;> rfl
  | transformDateFormat field name format =>
    cases format
    rw [map, dated]
    cases days? m.input field <;> rfl

theorem input_foldl (verbs : List Verb) (m : Mapping) : (verbs.foldl map m).input = seen verbs m.input := by
  induction verbs generalizing m with
  | nil => rfl
  | cons v rest ih =>
    rw [List.foldl_cons, ih, input_map]
    rfl

/-! ## Key parts -/

/-- The column of a unique count that is still to be merged. -/
def counted? : Verb → Option String
  | countUniqueValues _ name => some name
  | _ => none

/-- The columns of the unique counts among verbs. -/
def counts (verbs : List Verb) : List String := verbs.filterMap counted?

/-- The columns of the unique counts that come before the verb with a column. -/
def countsBefore (verbs : List Verb) (name : String) : List String :=
  counts (verbs.takeWhile fun v => v.field? ≠ some name)

/-- The part that a verb has in a key, once some unique counts are merged.  An event without the
field is rejected, so its null stands for nothing. -/
def keyPart? (merged : List String) (d : Document) : Verb → Option KeyPart
  | brokenDownBy field _ => some ((part? d field).getD .null)
  | countUniqueValues field name =>
    some (if name ∈ merged then .null else (part? d field).getD .null)
  | _ => none

/-- The parts of all verbs in a key, once some unique counts are merged. -/
def keyParts (merged : List String) : List Verb → Document → List KeyPart
  | [], _ => []
  | v :: rest, d => (keyPart? merged d v).toList ++ keyParts merged rest (dated d v)

/-- The part that a unique count counts. -/
def countedPart? (d : Document) : Verb → Option KeyPart
  | countUniqueValues field _ => some ((part? d field).getD .null)
  | _ => none

/-- The parts that the unique counts among verbs count. -/
def countedParts : List Verb → Document → List KeyPart
  | [], _ => []
  | v :: rest, d => (countedPart? d v).toList ++ countedParts rest (dated d v)

section KeyParts

variable {merged merged' : List String} {verbs before after : List Verb} {d e : Document} {name : String}

theorem mem_counts : name ∈ counts verbs ↔ ∃ field, .countUniqueValues field name ∈ verbs := by
  rw [counts, List.mem_filterMap]
  constructor
  · rintro ⟨v, mem, own⟩
    cases v with
    | countUniqueValues field other =>
      obtain rfl := Option.some.inj own
      exact ⟨field, mem⟩
    | countDocuments | only _ _ | brokenDownBy _ _ | sum _ _ | mean _ _ | indexedBy _
    | transformDateFormat _ _ _ | dropIndex | uniqueTally _ => cases own
  · rintro ⟨field, mem⟩
    exact ⟨_, mem, rfl⟩

theorem counts_append : counts (before ++ after) = counts before ++ counts after :=
  List.filterMap_append

/-- Unique counts own their columns. -/
theorem counts_sublist (verbs : List Verb) : (counts verbs).Sublist (verbs.filterMap field?) := by
  induction verbs with
  | nil => exact List.Sublist.refl _
  | cons v rest ih =>
    cases v with
    | countUniqueValues field name => exact ih.cons_cons name
    | countDocuments | brokenDownBy _ _ | sum _ _ | mean _ _ | uniqueTally _ => exact ih.cons _
    | only _ _ | indexedBy _ | transformDateFormat _ _ _ | dropIndex => exact ih

theorem countsBefore_of_fresh (fresh : name ∉ verbs.filterMap field?) :
    countsBefore verbs name = counts verbs := by
  rw [countsBefore, List.takeWhile_eq_self_iff.2]
  intro v mem
  apply decide_eq_true
  intro same
  exact fresh (List.mem_filterMap.2 ⟨v, mem, same⟩)

theorem countsBefore_of_split {v : Verb} (others : ∀ u ∈ before, u.field? ≠ some name)
    (owns : v.field? = some name) : countsBefore (before ++ v :: after) name = counts before := by
  rw [countsBefore, List.takeWhile_append_of_pos (by simpa using others)]
  simp [owns]

theorem countsBefore_append_singleton (verbs : List Verb) (v : Verb) (name : String) :
    countsBefore (verbs ++ [v]) name =
      if name ∈ (verbs ++ [v]).filterMap field? then countsBefore verbs name else counts (verbs ++ [v]) := by
  split
  · next listed =>
    by_cases early : name ∈ verbs.filterMap field?
    · obtain ⟨u, mem, owns⟩ := List.mem_filterMap.1 early
      rw [countsBefore, countsBefore, List.takeWhile_append, if_neg]
      intro whole
      have all := List.takeWhile_eq_self_iff.1 ((List.takeWhile_prefix _).eq_of_length whole) u mem
      simp [owns] at all
    · have owns : v.field? = some name := by simpa [early] using listed
      rw [countsBefore_of_fresh early]
      apply countsBefore_of_split _ owns
      intro u mem same
      exact early (List.mem_filterMap.2 ⟨u, mem, same⟩)
  · next missing => exact countsBefore_of_fresh missing

theorem keyParts_append (merged : List String) (before after : List Verb) (d : Document) :
    keyParts merged (before ++ after) d = keyParts merged before d ++ keyParts merged after (seen before d) := by
  induction before generalizing d with
  | nil => rfl
  | cons v rest ih =>
    rw [List.cons_append, keyParts, keyParts, ih, List.append_assoc]
    rfl

theorem length_keyPart? (merged : List String) (d : Document) (v : Verb) :
    (keyPart? merged d v).toList.length = [v].countP makesPart := by
  cases v <;> rfl

theorem length_keyParts (merged : List String) (verbs : List Verb) (d : Document) :
    (keyParts merged verbs d).length = verbs.countP makesPart := by
  induction verbs generalizing d with
  | nil => rfl
  | cons v rest ih =>
    rw [keyParts, List.length_append, length_keyPart?, ih, ← List.countP_append, List.singleton_append]

/-- Only the unique counts of the verbs at hand matter. -/
theorem keyParts_congr (same : ∀ name ∈ counts verbs, name ∈ merged ↔ name ∈ merged') (d : Document) :
    keyParts merged verbs d = keyParts merged' verbs d := by
  induction verbs generalizing d with
  | nil => rfl
  | cons v rest ih =>
    have own : keyPart? merged d v = keyPart? merged' d v := by
      cases v with
      | countUniqueValues field name =>
        have listed := same name (mem_counts.2 ⟨field, List.mem_cons_self⟩)
        simp only [keyPart?, listed]
      | countDocuments | only _ _ | brokenDownBy _ _ | sum _ _ | mean _ _ | indexedBy _
      | transformDateFormat _ _ _ | dropIndex | uniqueTally _ => rfl
    rw [keyParts, keyParts, own, ih]
    intro name mem
    obtain ⟨field, mem⟩ := mem_counts.1 mem
    exact same name (mem_counts.2 ⟨field, List.mem_cons_of_mem _ mem⟩)

/-- Merging a unique count clears its part. -/
theorem set_keyParts {field : String} (fresh : name ∉ counts (before ++ after)) (d : Document) :
    (keyParts merged (before ++ countUniqueValues field name :: after) d).set (before.countP makesPart) .null =
      keyParts (merged ++ [name]) (before ++ countUniqueValues field name :: after) d := by
  rw [counts_append, List.mem_append, not_or] at fresh
  have others : ∀ {verbs : List Verb}, name ∉ counts verbs → ∀ e,
      keyParts merged verbs e = keyParts (merged ++ [name]) verbs e := by
    intro verbs missing
    refine keyParts_congr fun other mem => ?_
    rw [List.mem_append, List.mem_singleton]
    refine ⟨.inl, fun listed => listed.resolve_right ?_⟩
    rintro rfl
    exact missing mem
  rw [keyParts_append, keyParts_append, ← others fresh.1, ← length_keyParts merged before d,
    List.set_append_right _ _ (Nat.le_refl _), Nat.sub_self, keyParts, keyParts, ← others fresh.2]
  simp [keyPart?]

/-- A key without a unique count merged tells the parts that are left and those that are cleared. -/
theorem keyParts_nil_eq_iff (covered : ∀ name ∈ counts verbs, name ∈ merged) :
    keyParts [] verbs d = keyParts [] verbs e ↔
      keyParts merged verbs d = keyParts merged verbs e ∧ countedParts verbs d = countedParts verbs e := by
  induction verbs generalizing d e with
  | nil => simp [keyParts, countedParts]
  | cons v rest ih =>
    have later := @ih (dated d v) (dated e v) fun name mem => by
      obtain ⟨field, mem⟩ := mem_counts.1 mem
      exact covered name (mem_counts.2 ⟨field, List.mem_cons_of_mem _ mem⟩)
    cases v with
    | countDocuments | only _ _ | sum _ _ | mean _ _ | indexedBy _ | transformDateFormat _ _ _
    | dropIndex | uniqueTally _ => exact later
    | brokenDownBy field name =>
      simp only [keyParts, keyPart?, countedParts, countedPart?, Option.toList_some, Option.toList_none,
        List.singleton_append, List.nil_append, List.cons.injEq, later, and_assoc]
    | countUniqueValues field name =>
      have hidden := covered name (mem_counts.2 ⟨field, List.mem_cons_self⟩)
      simp only [keyParts, keyPart?, countedParts, countedPart?, Option.toList_some, List.singleton_append,
        List.cons.injEq, later, if_pos hidden, List.not_mem_nil, if_false, true_and]
      tauto

/-- In one bucket of the last stage, keys in which the unique counts from some verb on are not merged
tell the values of those. -/
theorem keyParts_eq_iff (nodup : (counts (before ++ after)).Nodup)
    (last : keyParts (counts (before ++ after)) (before ++ after) d =
      keyParts (counts (before ++ after)) (before ++ after) e) :
    keyParts (counts before) (before ++ after) d = keyParts (counts before) (before ++ after) e ↔
      countedParts after (seen before d) = countedParts after (seen before e) := by
  have halves : ∀ merged, keyParts merged (before ++ after) d = keyParts merged (before ++ after) e ↔
      keyParts merged before d = keyParts merged before e ∧
        keyParts merged after (seen before d) = keyParts merged after (seen before e) := by
    intro merged
    rw [keyParts_append, keyParts_append]
    refine ⟨fun same => List.append_inj same ?_, fun same => by rw [same.1, same.2]⟩
    rw [length_keyParts, length_keyParts]
  have unmerged : ∀ e, keyParts (counts before) after e = keyParts [] after e := by
    rw [counts_append] at nodup
    refine keyParts_congr fun name mem => ?_
    have apart := (List.nodup_append.1 nodup).2.2
    simpa using fun listed => apart name listed name mem rfl
  have settled : ∀ e, keyParts (counts (before ++ after)) before e = keyParts (counts before) before e := by
    refine keyParts_congr fun name mem => ?_
    simp [counts_append, mem]
  have covered : ∀ name ∈ counts after, name ∈ counts (before ++ after) := fun name mem => by
    rw [counts_append]
    exact List.mem_append_right _ mem
  rw [halves, settled, settled] at last
  rw [halves, unmerged, unmerged, keyParts_nil_eq_iff covered]
  exact ⟨fun same => same.2.2, fun same => ⟨last.1, last.2, same⟩⟩

end KeyParts

/-! ## Accepted events -/

/-- An event that is not rejected has the part of every verb that makes one. -/
theorem part?_of_kept {m : Mapping} {v : Verb} (kept : (map m v).draft.rejected = false) {field name : String}
    (makes : v = brokenDownBy field name ∨ v = countUniqueValues field name) :
    ∃ part, part? m.input field = some part ∧ (map m v).draft.normal = m.draft.normal ++ [part] := by
  have found := map_scalar? m.input field
  rcases makes with rfl | rfl
  all_goals
    rw [map] at kept ⊢
    cases scalar : scalar? m.input field with
    | none =>
      rw [scalar] at kept
      exact absurd kept (by simp [Draft.reject])
    | some own =>
      rw [scalar] at found
      exact ⟨own.1, found.symm, rfl⟩

theorem normal_map {m : Mapping} {v : Verb} (unchained : v.isChained = false)
    (kept : (map m v).draft.rejected = false) :
    (map m v).draft.normal = m.draft.normal ++ (keyPart? [] m.input v).toList := by
  cases v with
  | countDocuments | sum _ _ | mean _ _ => exact (List.append_nil _).symm
  | only _ _ | indexedBy _ | transformDateFormat _ _ _ =>
    rw [map]
    split <;> exact (List.append_nil _).symm
  | brokenDownBy field name =>
    obtain ⟨part, found, normal⟩ := part?_of_kept kept (.inl rfl)
    simp [normal, keyPart?, found]
  | countUniqueValues field name =>
    obtain ⟨part, found, normal⟩ := part?_of_kept kept (.inr rfl)
    simp [normal, keyPart?, found]
  | dropIndex | uniqueTally _ => cases unchained

/-- The normal parts of an accepted event are those of its verbs. -/
theorem normal_foldl {verbs : List Verb} {m : Mapping} (unchained : ∀ v ∈ verbs, v.isChained = false)
    (kept : (verbs.foldl map m).draft.rejected = false) :
    (verbs.foldl map m).draft.normal = m.draft.normal ++ keyParts [] verbs m.input := by
  induction verbs generalizing m with
  | nil => exact (List.append_nil _).symm
  | cons v rest ih =>
    have first : (map m v).draft.rejected = false := kept_of_foldl [v] kept
    rw [List.foldl_cons, ih (fun u mem => unchained u (List.mem_cons_of_mem _ mem)) kept,
      normal_map (unchained v List.mem_cons_self) first, input_map, List.append_assoc]
    rfl

/-- The key of an accepted event once some unique counts are merged, without index parts. -/
def mergedKey? (verbs : List Verb) (merged : List String) (d : Document) : Option Key :=
  ((Stage.root verbs).key? d).map fun _ => ⟨keyParts merged verbs d⟩

section Accepted

variable {verbs : List Verb} {merged : List String} {d e : Document}

theorem mergedKey?_eq_some {key : Key} :
    mergedKey? verbs merged d = some key ↔
      (∃ own, (Stage.root verbs).key? d = some own) ∧ keyParts merged verbs d = key.parts := by
  obtain ⟨parts⟩ := key
  rw [mergedKey?]
  cases (Stage.root verbs).key? d <;> simp

theorem isSome_mergedKey? (verbs : List Verb) (merged : List String) (d : Document) :
    (mergedKey? verbs merged d).isSome = ((Stage.root verbs).map? d).isSome := by
  rw [mergedKey?, Stage.key?]
  simp

/-- What the root makes of an event, as far as its key goes. -/
theorem key?_cases (unchained : ∀ v ∈ verbs, v.isChained = false) (d : Document) :
    (Stage.root verbs).key? d = none ∨
      ∃ draft : Draft, (Stage.root verbs).key? d = some ⟨draft.parts ++ draft.marker⟩ ∧
        draft.normal = keyParts [] verbs d ∧ draft.index.length = verbs.countP isIndex := by
  cases mapped : (Stage.root verbs).map? d with
  | none => exact .inl (by rw [Stage.key?, mapped]; rfl)
  | some entry =>
    obtain ⟨⟨parts⟩, out⟩ := entry
    obtain ⟨draft, rfl, kept, told, rfl⟩ := root_map?_eq mapped
    refine .inr ⟨_, ?_, normal_foldl unchained kept, ?_⟩
    · rw [Stage.key?, mapped, ← told]
      rfl
    · exact (parts_foldl unchained kept).2.trans (Nat.zero_add _)

theorem key?_of_unindexed (unchained : ∀ v ∈ verbs, v.isChained = false)
    (unindexed : verbs.countP isIndex = 0) (d : Document) :
    (Stage.root verbs).key? d = mergedKey? verbs [] d := by
  rcases key?_cases unchained d with rejected | ⟨draft, own, normal, index⟩
  · rw [mergedKey?, rejected]
    rfl
  · have none : draft.index = [] := List.eq_nil_of_length_eq_zero (index.trans unindexed)
    rw [mergedKey?, own, ← normal]
    simp [Draft.parts, Draft.marker, none]

/-- Dropping index parts leaves the normal ones. -/
theorem key?_bind_dropRoute (plain : Plain verbs) (indexed : 0 < verbs.countP isIndex) (d : Document) :
    ((Stage.root verbs).key? d).bind dropRoute = mergedKey? verbs [] d := by
  rcases key?_cases plain.unchained d with rejected | ⟨draft, own, normal, index⟩
  · rw [mergedKey?, rejected]
    rfl
  · have some_ : draft.index ≠ [] := List.ne_nil_of_length_pos (by rw [index]; exact indexed)
    have small : draft.index.length < 2 ^ 63 := by
      rw [index]
      exact Nat.lt_of_le_of_lt List.countP_le_length plain.short
    rw [mergedKey?, own, Option.bind_some, dropRoute, setKey_marked rfl some_ small, ← normal]
    rfl

/-- Merging a unique count takes every event's key to the key without its part. -/
theorem mergedKey?_bind_tallyRoute {before after : List Verb} {field name : String} (plain : Plain verbs)
    (split : verbs = before ++ countUniqueValues field name :: after)
    (nodup : (verbs.filterMap field?).Nodup) (d : Document) :
    (mergedKey? verbs merged d).bind (tallyRoute (keySlot verbs name)) =
      mergedKey? verbs (merged ++ [name]) d := by
  have own : (countUniqueValues field name).field? = some name := rfl
  rw [split, List.filterMap_append, List.filterMap_cons, own, List.nodup_append, List.nodup_cons] at nodup
  obtain ⟨-, ⟨later, -⟩, apart⟩ := nodup
  have others : ∀ u ∈ before, u.field? ≠ some name := fun u mem same =>
    apart name (List.mem_filterMap.2 ⟨u, mem, same⟩) name List.mem_cons_self rfl
  have fresh : name ∉ counts (before ++ after) := by
    rw [counts_append, List.mem_append, not_or]
    exact ⟨fun mem => apart name ((counts_sublist _).subset mem) name List.mem_cons_self rfl,
      fun mem => later ((counts_sublist _).subset mem)⟩
  have small : keySlot verbs name < 2 ^ 63 := Nat.lt_of_le_of_lt (keySlot_le verbs name) plain.short
  have cleared := @set_keyParts merged before after name field fresh d
  rw [← @keySlot_append before after _ name others own, ← split] at cleared
  rw [mergedKey?, mergedKey?]
  cases (Stage.root verbs).key? d with
  | none => rfl
  | some key => simp [tallyRoute, marker?_ofNat small, cleared]

end Accepted

end Verb

end Rollup
