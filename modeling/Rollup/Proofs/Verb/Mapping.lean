import Rollup.Proofs.Stage.Aggregate

/-!
# What mapping makes of an event

Mapping is confined like folding.  A verb that makes a key part puts it behind the normal parts that
are there, so the slot of its part is the number of verbs before it that make one (`keySlot`); no
verb moves a part.  What the root stage makes of an event is counted once (`Fresh`), and its key tells the values of the
breakdowns (`Tells`).
-/

namespace Rollup.Verb

open Document Mean

/-! ## Mapping is confined -/

theorem map_confined : Confined (fun m : Mapping => m.draft.doc) map := by
  refine .of_touches fun m v => ?_
  cases v with
  | countDocuments | sum _ _ => exact .column _ _
  | brokenDownBy field name =>
    rw [map]
    split
    · exact .column name _
    · exact .nothing
  | mean field name => exact .both name _ _
  | countUniqueValues field name =>
    rw [map]
    split
    · exact .both name _ _
    · exact .nothing
  | only _ _ | indexedBy _ | transformDateFormat _ _ _ | uniqueTally _ =>
    rw [map]
    split <;> exact .nothing
  | dropIndex => exact .nothing

/-! ## Rejection -/

theorem rejected_map (m : Mapping) (v : Verb) (gone : m.draft.rejected = true) :
    (map m v).draft.rejected = true := by
  cases v with
  | countDocuments | sum _ _ | mean _ _ | dropIndex => exact gone
  | only _ _ | brokenDownBy _ _ | countUniqueValues _ _ | indexedBy _ | transformDateFormat _ _ _
  | uniqueTally _ =>
    rw [map]
    split <;> first | exact gone | rfl

theorem rejected_foldl (verbs : List Verb) (m : Mapping) (gone : m.draft.rejected = true) :
    (verbs.foldl map m).draft.rejected = true := by
  induction verbs generalizing m with
  | nil => exact gone
  | cons v rest ih => exact ih (map m v) (rejected_map m v gone)

/-- What was not rejected in the end never was. -/
theorem kept_of_foldl (before : List Verb) {after : List Verb} {m : Mapping}
    (kept : ((before ++ after).foldl map m).draft.rejected = false) :
    (before.foldl map m).draft.rejected = false := by
  by_contra gone
  rw [Bool.not_eq_false] at gone
  rw [List.foldl_append, rejected_foldl after _ gone] at kept
  exact Bool.noConfusion kept

/-! ## Key parts -/

/-- Whether the verb makes a normal key part. -/
def makesPart : Verb → Bool
  | brokenDownBy _ _ | countUniqueValues _ _ => true
  | _ => false

/-- The slot of the key part of the verb that writes a field. -/
def keySlot (verbs : List Verb) (name : String) : Nat :=
  (verbs.takeWhile fun v => v.field? ≠ some name).countP makesPart

theorem keySlot_append {before after : List Verb} {v : Verb} {name : String}
    (others : ∀ u ∈ before, u.field? ≠ some name) (owns : v.field? = some name) :
    keySlot (before ++ v :: after) name = before.countP makesPart := by
  have own : decide (v.field? ≠ some name) = false := by simpa using owns
  rw [keySlot, List.takeWhile_append_of_pos (by simpa using others), List.takeWhile_cons]
  simp [own]

theorem keySlot_of_split {verbs before after : List Verb} {v : Verb} {name : String} (apart : Apart verbs)
    (split : verbs = before ++ v :: after) (owns : v.field? = some name) :
    keySlot verbs name = before.countP makesPart := by
  subst split
  refine keySlot_append (fun u mem same => ?_) owns
  have nodup := apart.nodup
  simp only [List.filterMap_append, List.filterMap_cons, owns, List.nodup_append] at nodup
  exact nodup.2.2 name (List.mem_filterMap.2 ⟨u, mem, same⟩) name List.mem_cons_self rfl

theorem keySlot_le (verbs : List Verb) (name : String) : keySlot verbs name ≤ verbs.length :=
  Nat.le_trans List.countP_le_length (List.takeWhile_sublist _).length_le

/-- A slot lies before those of the parts made later. -/
theorem keySlot_lt {before after : List Verb} {u v : Verb} {name other : String}
    (apart : Apart (before ++ v :: after)) (mem : u ∈ before) (owns : u.field? = some name)
    (owns' : v.field? = some other) (makes : u.makesPart = true) :
    keySlot (before ++ v :: after) name < keySlot (before ++ v :: after) other := by
  obtain ⟨front, back, rfl⟩ := List.append_of_mem mem
  have nodup := apart.nodup
  simp only [List.filterMap_append, List.filterMap_cons, owns, owns', List.nodup_append,
    List.nodup_cons] at nodup
  have others : ∀ w ∈ front, w.field? ≠ some name := fun w member same =>
    nodup.1.2.2 name (List.mem_filterMap.2 ⟨w, member, same⟩) name List.mem_cons_self rfl
  have others' : ∀ w ∈ front ++ u :: back, w.field? ≠ some other := by
    intro w member same
    refine nodup.2.2 other ?_ other List.mem_cons_self rfl
    have listed := List.mem_filterMap.2 ⟨w, member, same⟩
    simpa only [List.filterMap_append, List.filterMap_cons, owns] using listed
  rw [keySlot_append others' owns', List.append_assoc, List.cons_append, keySlot_append others owns,
    List.countP_append, List.countP_cons_of_pos makes]
  omega

/-- Different parts are in different slots. -/
theorem keySlot_ne {verbs : List Verb} (apart : Apart verbs) {u v : Verb} {name other : String}
    (mem : u ∈ verbs) (mem' : v ∈ verbs) (owns : u.field? = some name) (owns' : v.field? = some other)
    (makes : u.makesPart = true) (makes' : v.makesPart = true) (different : u ≠ v) :
    keySlot verbs name ≠ keySlot verbs other := by
  obtain ⟨before, after, rfl⟩ := List.append_of_mem mem'
  rcases List.mem_append.1 mem with member | member
  · exact Nat.ne_of_lt (keySlot_lt apart member owns owns' makes)
  · obtain same | member := List.mem_cons.1 member
    · exact absurd same different
    · obtain ⟨front, back, rfl⟩ := List.append_of_mem member
      have regrouped : before ++ v :: (front ++ u :: back) = (before ++ v :: front) ++ u :: back := by simp
      rw [regrouped] at apart ⊢
      exact Nat.ne_of_gt (keySlot_lt apart (by simp) owns' owns makes')

theorem length_normal_map {m : Mapping} {v : Verb} (kept : (map m v).draft.rejected = false) :
    (map m v).draft.normal.length = m.draft.normal.length + [v].countP makesPart := by
  cases v with
  | countDocuments | sum _ _ | mean _ _ | dropIndex => rfl
  | only _ _ | indexedBy _ | transformDateFormat _ _ _ =>
    rw [map]
    split <;> rfl
  | brokenDownBy field name | countUniqueValues field name =>
    rw [map] at kept ⊢
    split
    · exact List.length_append
    · next missing =>
      rw [missing] at kept
      exact absurd kept (by simp [Draft.reject])
  | uniqueTally name =>
    rw [map]
    split
    · exact List.length_set
    · rfl

theorem length_normal_foldl {verbs : List Verb} {m : Mapping}
    (kept : (verbs.foldl map m).draft.rejected = false) :
    (verbs.foldl map m).draft.normal.length = m.draft.normal.length + verbs.countP makesPart := by
  induction verbs generalizing m with
  | nil => rfl
  | cons v rest ih =>
    have first : (map m v).draft.rejected = false := kept_of_foldl [v] kept
    rw [List.foldl_cons, ih kept, length_normal_map first, List.countP_cons (l := rest)]
    simp only [List.countP_singleton]
    omega

/-- When the turn of a verb comes, the slot of its part is the number of parts made so far. -/
theorem turn_kept {before after : List Verb} {v : Verb} {doc : Document}
    (kept : ((before ++ v :: after).foldl map ⟨{}, doc⟩).draft.rejected = false) :
    (map (before.foldl map ⟨{}, doc⟩) v).draft.rejected = false ∧
      (before.foldl map ⟨{}, doc⟩).draft.nextSlot = before.countP makesPart := by
  have length := length_normal_foldl (kept_of_foldl before kept)
  rw [← List.singleton_append, ← List.append_assoc] at kept
  have early := kept_of_foldl _ kept
  rw [List.foldl_append] at early
  exact ⟨early, length.trans (Nat.zero_add _)⟩

/-- Verbs that only the stages behind the root have. -/
def isChained : Verb → Bool
  | dropIndex | uniqueTally _ => true
  | _ => false

/-- Parts are only added behind those that are there. -/
theorem parts_foldl {verbs : List Verb} {m : Mapping} (plain : ∀ v ∈ verbs, v.isChained = false)
    (kept : (verbs.foldl map m).draft.rejected = false) :
    (∃ more, (verbs.foldl map m).draft.normal = m.draft.normal ++ more) ∧
      (verbs.foldl map m).draft.index.length = m.draft.index.length + verbs.countP isIndex := by
  induction verbs generalizing m with
  | nil => exact ⟨⟨[], (List.append_nil _).symm⟩, rfl⟩
  | cons v rest ih =>
    have first : (map m v).draft.rejected = false := kept_of_foldl [v] kept
    obtain ⟨⟨more, normal⟩, index⟩ := ih (fun u member => plain u (List.mem_cons_of_mem _ member)) kept
    -- A verb adds at most one part, at the end of the index parts or of the others.
    have step : (∃ more, (map m v).draft.normal = m.draft.normal ++ more) ∧
        (map m v).draft.index.length = m.draft.index.length + if v.isIndex then 1 else 0 := by
      cases v with
      | countDocuments | sum _ _ | mean _ _ => exact ⟨⟨[], (List.append_nil _).symm⟩, rfl⟩
      | only _ _ | transformDateFormat _ _ _ =>
        rw [map]
        split <;> exact ⟨⟨[], (List.append_nil _).symm⟩, rfl⟩
      | brokenDownBy field name | countUniqueValues field name =>
        rw [map]
        split
        · exact ⟨⟨_, rfl⟩, rfl⟩
        · exact ⟨⟨[], (List.append_nil _).symm⟩, rfl⟩
      | indexedBy field =>
        rw [map] at first ⊢
        split
        · exact ⟨⟨[], (List.append_nil _).symm⟩, List.length_append⟩
        · next missing =>
          rw [missing] at first
          exact absurd first (by simp [Draft.reject])
      | dropIndex | uniqueTally _ => exact absurd (plain _ List.mem_cons_self) (by simp [isChained])
    obtain ⟨⟨own, before⟩, count⟩ := step
    refine ⟨⟨own ++ more, ?_⟩, ?_⟩
    · rw [List.foldl_cons, normal, before, List.append_assoc]
    · rw [List.foldl_cons, index, count, List.countP_cons]
      omega

end Rollup.Verb

/-! ## Events at the root -/

namespace Rollup

open Document

/-- The key of a bucket tells a value: the part in a slot is the part of the value. -/
def Tells (index slot : Nat) (key : Key) (value : Value) : Prop :=
  ∃ (draft : Draft) (part : KeyPart), draft.index.length = index ∧
    key.parts = draft.parts ++ draft.marker ∧ draft.normal[slot]? = some part ∧
    KeyPart.ofValue? value = some part

/-- A mapped event: it counts once, and nothing is tallied yet. -/
structure Fresh (reduces : List Verb) (d : Document) : Prop where
  count : d.get? Field.count = some (.int 1)
  tally : ∀ name, .uniqueTally name ∈ reduces → d.get? name = none

theorem finish?_eq {draft : Draft} {entry : Key × Document} (finished : draft.finish? = some entry) :
    draft.rejected = false ∧ entry = (⟨draft.parts ++ draft.marker⟩, draft.doc) := by
  rw [Draft.finish?] at finished
  split at finished
  · cases finished
  · next kept => exact ⟨by simpa using kept, (Option.some.inj finished).symm⟩

theorem Verb.ofValue?_of_scalar? {input : Document} {field : String} {part : KeyPart} {value : Value}
    (scalar : Verb.scalar? input field = some (part, value)) : KeyPart.ofValue? value = some part := by
  simp only [Verb.scalar?, Option.bind_eq_bind, Option.bind_eq_some_iff, Option.pure_def,
    Option.some.injEq, Prod.mk.injEq] at scalar
  obtain ⟨_, -, _, found, rfl, rfl⟩ := scalar
  exact found

theorem Counting.filter_reduces {verbs : List Verb} (counting : Counting verbs) :
    Counting (verbs.filter Verb.reduces) where
  head := by
    obtain ⟨rest, rfl⟩ := counting.head
    exact ⟨rest.filter Verb.reduces, rfl⟩
  apart := by
    have sub := (List.filter_sublist (l := verbs) (p := Verb.reduces)).filterMap Verb.field?
    exact ⟨counting.apart.nodup.sublist sub, fun f mem => counting.apart.visible f (sub.subset mem)⟩

section Root

variable {verbs : List Verb} {doc d : Document} {key : Key}

theorem root_map?_eq (mapped : (Stage.root verbs).map? doc = some (key, d)) :
    ∃ draft, draft = (verbs.foldl Verb.map ⟨{}, doc⟩).draft ∧ draft.rejected = false ∧
      key.parts = draft.parts ++ draft.marker ∧ d = draft.doc := by
  obtain ⟨kept, same⟩ := finish?_eq mapped
  cases same
  exact ⟨_, rfl, kept, rfl, rfl⟩

/-- An event that is not rejected counts once. -/
theorem fresh_root_map? (counting : Counting verbs) (mapped : (Stage.root verbs).map? doc = some (key, d)) :
    Fresh (verbs.filter Verb.reduces) d := by
  obtain ⟨draft, rfl, kept, -, rfl⟩ := root_map?_eq mapped
  refine ⟨?_, ?_⟩
  · obtain ⟨before, after, rfl, first, found, -⟩ := Verb.map_confined.foldl_turn counting.apart
      counting.count_mem rfl ⟨{}, doc⟩
    exact found.trans (get?_insert_self _ _ _)
  · intro name mem
    have mem := List.mem_of_mem_filter mem
    obtain ⟨before, after, split, first, found, -⟩ := Verb.map_confined.foldl_turn counting.apart
      mem rfl ⟨{}, doc⟩
    have early := Verb.map_confined.foldl_get? first (counting.apart.ne_intermediate mem rfl) ⟨{}, doc⟩
    refine found.trans (Eq.trans ?_ early)
    simp only [Verb.map]
    split <;> rfl

/-- What a stage relies on holds of mapped events.  Their keys tell the breakdowns, provided that no
verb takes a part away. -/
theorem readable_root_map? (counting : Counting verbs)
    (mapped : (Stage.root verbs).map? doc = some (key, d)) :
    Readable (Verb.keySlot verbs)
      (fun name value => (∀ v ∈ verbs, v.isChained = false) →
        Tells (verbs.countP Verb.isIndex) (Verb.keySlot verbs name) key value)
      (verbs.filter Verb.reduces) d := by
  have fresh := fresh_root_map? counting mapped
  obtain ⟨draft, rfl, kept, parts, rfl⟩ := root_map?_eq mapped
  refine ⟨⟨1, fresh.count⟩, fun name mem => .inl (fresh.tally name mem), ?_, ?_⟩
  · intro field name mem
    obtain ⟨before, after, rfl, first, -, state⟩ := Verb.map_confined.foldl_turn counting.apart
      (List.mem_of_mem_filter mem) rfl ⟨{}, doc⟩
    obtain ⟨early, length⟩ := Verb.turn_kept kept
    rw [state, Verb.keySlot_append first rfl, ← length]
    rw [Verb.map] at early ⊢
    split at early
    · exact Mean.state?_insertIn_self _ name _
    · exact absurd early (by simp [Draft.reject])
  · intro field name mem
    obtain ⟨before, after, rfl, first, found, -⟩ := Verb.map_confined.foldl_turn counting.apart
      (List.mem_of_mem_filter mem) rfl ⟨{}, doc⟩
    obtain ⟨early, length⟩ := Verb.turn_kept kept
    -- What the verbs behind add comes after the part that this one adds.
    have added := @Verb.parts_foldl after (Verb.map (before.foldl Verb.map ⟨{}, doc⟩) (.brokenDownBy field name))
    rw [Verb.keySlot_append first rfl, ← length]
    rw [List.foldl_append, List.foldl_cons] at kept
    simp only [Verb.map] at early found added
    split at early
    · next part value scalar =>
      simp only [scalar] at found added
      refine ⟨value, found.trans (get?_insert_self _ name value), fun plain => ?_⟩
      refine ⟨_, part, (Verb.parts_foldl plain (by simpa using kept)).2.trans (Nat.zero_add _), parts, ?_,
        Verb.ofValue?_of_scalar? scalar⟩
      obtain ⟨⟨more, normal⟩, -⟩ := added (fun v member => plain v (by simp [member]))
        (by simpa only [Verb.map, scalar] using kept)
      rw [List.foldl_append, List.foldl_cons]
      simp only [Verb.map, scalar]
      rw [normal]
      simp [Draft.setValue, Draft.addKey, Draft.nextSlot]
    · exact absurd early (by simp [Draft.reject])

end Root

end Rollup
