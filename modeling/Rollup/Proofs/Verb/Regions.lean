import Rollup.Proofs.Verb.Parts

/-!
# The two regions of a key

What any list of verbs makes of the regions of an event's key, verbs that clear parts included.  A key has
index parts if the last verb that touches them adds some (`KeepsIndex`, `index_ne_nil`).  A normal part stays
in its slot unless it is cleared there (`slot_of_split`).
-/

namespace Rollup.Verb

open Document

/-- No verb behind the last index drops index parts. -/
def KeepsIndex (verbs : List Verb) : Prop :=
  ∀ before field after, verbs = before ++ indexedBy field :: after → (∀ v ∈ after, v.isIndex = false) →
    dropIndex ∉ after

theorem keepsIndex_of_not_mem {verbs : List Verb} (none : dropIndex ∉ verbs) : KeepsIndex verbs := by
  rintro before field after rfl - drops
  exact none (List.mem_append_right _ (List.mem_cons_of_mem _ drops))

/-- What the verbs of the root make of an event. -/
def draft (verbs : List Verb) (event : Document) : Draft := (verbs.foldl map ⟨{}, event⟩).draft

/-- A part stands in a slot, unless one of the verbs has cleared it. -/
def Held (verbs : List Verb) (part : KeyPart) (found : Option KeyPart) : Prop :=
  found = some part ∨ (∃ name, uniqueTally name ∈ verbs) ∧ found = some .null

/-! ## Index parts -/

section Index

variable {verbs : List Verb} {v : Verb} {m : Mapping} {event : Document}

theorem index_map (unindexed : v.isIndex = false) (kept : v ≠ dropIndex) (m : Mapping) :
    (map m v).draft.index = m.draft.index := by
  cases v with
  | countDocuments | sum _ _ | mean _ _ => rfl
  | only _ _ | brokenDownBy _ _ | countUniqueValues _ _ | transformDateFormat _ _ _ | uniqueTally _ =>
    rw [map]
    split <;> rfl
  | indexedBy _ => cases unindexed
  | dropIndex => exact absurd rfl kept

theorem index_foldl (unindexed : ∀ v ∈ verbs, v.isIndex = false) (kept : dropIndex ∉ verbs) (m : Mapping) :
    (verbs.foldl map m).draft.index = m.draft.index := by
  induction verbs generalizing m with
  | nil => rfl
  | cons v rest ih =>
    rw [List.foldl_cons, ih (fun u mem => unindexed u (List.mem_cons_of_mem _ mem))
      fun mem => kept (List.mem_cons_of_mem _ mem)]
    exact index_map (unindexed v List.mem_cons_self) (fun same => kept (same ▸ List.mem_cons_self)) m

/-- Without an index there are no index parts. -/
theorem index_foldl_eq_nil (unindexed : ∀ v ∈ verbs, v.isIndex = false) (none : m.draft.index = []) :
    (verbs.foldl map m).draft.index = [] := by
  induction verbs generalizing m with
  | nil => exact none
  | cons v rest ih =>
    refine ih (fun u mem => unindexed u (List.mem_cons_of_mem _ mem)) ?_
    by_cases drops : v = dropIndex
    · rw [drops]
      rfl
    · rw [index_map (unindexed v List.mem_cons_self) drops, none]

theorem length_index_map_le (m : Mapping) (v : Verb) :
    (map m v).draft.index.length ≤ m.draft.index.length + 1 := by
  cases v with
  | indexedBy field =>
    rw [map]
    split
    · exact List.length_append.le
    · exact Nat.le_succ _
  | dropIndex => exact Nat.zero_le _
  | countDocuments | only _ _ | brokenDownBy _ _ | sum _ _ | mean _ _ | countUniqueValues _ _
  | transformDateFormat _ _ _ | uniqueTally _ =>
    refine Nat.le_succ_of_le (congrArg List.length (index_map ?_ ?_ m)).le
    · rfl
    · intro same
      cases same

theorem length_index_foldl_le (verbs : List Verb) (m : Mapping) :
    (verbs.foldl map m).draft.index.length ≤ m.draft.index.length + verbs.length := by
  induction verbs generalizing m with
  | nil => exact Nat.le_refl _
  | cons v rest ih =>
    have first := length_index_map_le m v
    have later := ih (map m v)
    rw [List.foldl_cons, List.length_cons]
    omega

theorem length_index_draft_le (verbs : List Verb) (event : Document) :
    (draft verbs event).index.length ≤ verbs.length :=
  (length_index_foldl_le verbs _).trans (Nat.zero_add _).le

theorem index_draft_eq_nil (unindexed : verbs.countP isIndex = 0) (event : Document) :
    (draft verbs event).index = [] := by
  refine index_foldl_eq_nil (fun v mem => ?_) rfl
  simpa using List.countP_eq_zero.1 unindexed v mem

theorem exists_last_index (indexed : 0 < verbs.countP isIndex) :
    ∃ before field after, verbs = before ++ indexedBy field :: after ∧ ∀ v ∈ after, v.isIndex = false := by
  induction verbs with
  | nil => cases indexed
  | cons v rest ih =>
    by_cases later : 0 < rest.countP isIndex
    · obtain ⟨before, field, after, rfl, last⟩ := ih later
      exact ⟨v :: before, field, after, rfl, last⟩
    · have none : ∀ u ∈ rest, u.isIndex = false := by simpa using later
      cases v with
      | indexedBy field => exact ⟨[], field, rest, rfl, none⟩
      | countDocuments | only _ _ | brokenDownBy _ _ | sum _ _ | mean _ _ | countUniqueValues _ _
      | transformDateFormat _ _ _ | dropIndex | uniqueTally _ => exact absurd indexed later

/-- The keys of accepted events have index parts if some are added and none dropped behind those. -/
theorem index_draft_ne_nil (keeps : KeepsIndex verbs) (indexed : 0 < verbs.countP isIndex)
    (kept : (draft verbs event).rejected = false) : (draft verbs event).index ≠ [] := by
  -- The last index adds a part, and what comes behind it leaves the region alone.
  obtain ⟨before, field, after, rfl, last⟩ := exists_last_index indexed
  have own := (turn_kept kept).1
  rw [draft, List.foldl_append, List.foldl_cons, index_foldl last (keeps before field after rfl last)]
  rw [map] at own ⊢
  split at own
  · exact List.append_ne_nil_of_right_ne_nil _ (List.cons_ne_nil _ _)
  · cases own

end Index

/-! ## Index values -/

/-- The part that an index makes of an event.  An event without the field is rejected, so its null stands for
nothing. -/
def indexPart? (d : Document) : Verb → Option KeyPart
  | indexedBy field => some ((part? d field).getD .null)
  | _ => none

/-- The parts that indexes make of an event, in the order of the verbs. -/
def indexParts : List Verb → Document → List KeyPart
  | [], _ => []
  | v :: rest, d => (indexPart? d v).toList ++ indexParts rest (dated d v)

section Values

variable {verbs : List Verb} {v : Verb} {m : Mapping} {event : Document}

theorem length_indexParts (verbs : List Verb) (event : Document) :
    (indexParts verbs event).length = verbs.countP isIndex := by
  induction verbs generalizing event with
  | nil => rfl
  | cons v rest ih =>
    have own : (indexPart? event v).toList.length = [v].countP isIndex := by cases v <;> rfl
    rw [indexParts, List.length_append, own, ih, ← List.countP_append, List.singleton_append]

theorem index_map_eq (unchained : v.isChained = false) (kept : (map m v).draft.rejected = false) :
    (map m v).draft.index = m.draft.index ++ (indexPart? m.input v).toList := by
  cases v with
  | indexedBy field =>
    have found := map_scalar? m.input field
    rw [map] at kept ⊢
    split at kept
    · next scalar =>
      rw [scalar] at found
      simp [indexPart?, ← found, Draft.addIndexKey]
    · cases kept
  | dropIndex | uniqueTally _ => cases unchained
  | countDocuments | only _ _ | brokenDownBy _ _ | sum _ _ | mean _ _ | countUniqueValues _ _
  | transformDateFormat _ _ _ =>
    exact (index_map rfl (by rintro ⟨⟩) m).trans (List.append_nil _).symm

/-- The index parts of an accepted event are those of its indexes. -/
theorem index_foldl_eq (unchained : ∀ v ∈ verbs, v.isChained = false)
    (kept : (verbs.foldl map m).draft.rejected = false) :
    (verbs.foldl map m).draft.index = m.draft.index ++ indexParts verbs m.input := by
  induction verbs generalizing m with
  | nil => exact (List.append_nil _).symm
  | cons v rest ih =>
    have first : (map m v).draft.rejected = false := kept_of_foldl [v] kept
    rw [List.foldl_cons, ih (fun u mem => unchained u (List.mem_cons_of_mem _ mem)) kept,
      index_map_eq (unchained v List.mem_cons_self) first, input_map, List.append_assoc]
    rfl

theorem index_draft_eq (unchained : ∀ v ∈ verbs, v.isChained = false)
    (kept : (draft verbs event).rejected = false) : (draft verbs event).index = indexParts verbs event :=
  index_foldl_eq unchained kept

end Values

/-! ## Normal parts -/

section Normal

variable {all verbs before after : List Verb} {v : Verb} {m : Mapping} {slot : Nat} {part : KeyPart}

theorem held_map (mem : v ∈ all) (held : Held all part m.draft.normal[slot]?) :
    Held all part (map m v).draft.normal[slot]? := by
  have inside : slot < m.draft.normal.length := by
    rcases held with found | ⟨-, found⟩
    all_goals exact (List.getElem?_eq_some_iff.1 found).1
  -- New parts come behind the others, so only a tally can write into a slot that is there.
  cases v with
  | countDocuments | sum _ _ | mean _ _ | dropIndex => exact held
  | only _ _ | indexedBy _ | transformDateFormat _ _ _ =>
    rw [map]
    split <;> exact held
  | brokenDownBy _ _ | countUniqueValues _ _ =>
    rw [map]
    split
    · exact (List.getElem?_append_left inside).symm ▸ held
    · exact held
  | uniqueTally name =>
    rw [map]
    split
    · next cleared _ =>
      by_cases same : cleared = slot
      · subst same
        exact .inr ⟨⟨name, mem⟩, List.getElem?_set_self inside⟩
      · exact (List.getElem?_set_ne same).symm ▸ held
    · exact held

theorem held_foldl (sub : verbs ⊆ all) (held : Held all part m.draft.normal[slot]?) :
    Held all part (verbs.foldl map m).draft.normal[slot]? := by
  induction verbs generalizing m with
  | nil => exact held
  | cons v rest ih =>
    exact ih (List.subset_of_cons_subset sub) (held_map (sub List.mem_cons_self) held)

/-- The part of a unique count stands behind those of the verbs before it. -/
theorem held_draft {field name : String} {event : Document}
    (kept : (draft (before ++ countUniqueValues field name :: after) event).rejected = false) :
    ∃ part, part? (seen before event) field = some part ∧
      Held (before ++ countUniqueValues field name :: after) part
        (draft (before ++ countUniqueValues field name :: after) event).normal[before.countP makesPart]? := by
  obtain ⟨own, slot⟩ := turn_kept kept
  obtain ⟨part, found, normal⟩ := part?_of_kept own (.inr rfl)
  rw [input_foldl] at found
  refine ⟨part, found, ?_⟩
  rw [draft, List.foldl_append, List.foldl_cons]
  refine held_foldl (fun u mem => List.mem_append_right _ (List.mem_cons_of_mem _ mem)) (.inl ?_)
  rw [normal, ← slot]
  exact List.getElem?_concat_length

end Normal

end Rollup.Verb
