import Rollup.Proofs.Verb.Mapping

/-!
# How chained stages merge buckets

A chained stage sends a bucket of the stage before it to one of its own, and which one depends on
the key alone (`Merges`): `dropRoute` forgets index parts, and `tallyRoute` clears the part that a
unique count counts.  The document is passed on as it is, so a chained stage folds what was stored
before it.
-/

namespace Rollup

open Document

/-! ## Keys inside documents -/

namespace KeyPart

theorem ofKeyValue?_toValue (p : KeyPart) : ofKeyValue? p.toValue = some p := by
  cases p with
  | null | int _ | text _ => rfl
  | float x not_whole => exact congrArg some (ofFloat_of_none not_whole)

end KeyPart

theorem Key.ofValue?_toValue (key : Key) : Key.ofValue? key.toValue = some key := by
  obtain ⟨parts⟩ := key
  have read : (parts.map KeyPart.toValue).mapM KeyPart.ofKeyValue? = some parts := by
    induction parts with
    | nil => rfl
    | cons p rest ih =>
      rw [List.map_cons, List.mapM_cons, KeyPart.ofKeyValue?_toValue, ih]
      rfl
  rw [Key.ofValue?, Key.toValue, Value.list?, Option.bind_some, read]
  rfl

namespace Stage

/-- A bucket as the verbs of the next stage see it. -/
def untagged (key : Key) (doc : Document) : Document := (tagged key doc).erase Field.key

theorem get?_untagged (key : Key) (doc : Document) {field : String} (plain : field ≠ Field.key) :
    (untagged key doc).get? field = doc.get? field := by
  rw [untagged, SortedMap.get?_erase, if_neg plain, tagged, get?_insert_of_ne _ _ plain]

theorem state?_untagged (key : Key) (doc : Document) (name : String) :
    Mean.state? (untagged key doc) name = Mean.state? doc name :=
  Mean.state?_congr name (get?_untagged key doc (by decide))

theorem whole_untagged (key : Key) (doc : Document) {field : String} (plain : field ≠ Field.key) :
    whole (untagged key doc) field = whole doc field :=
  whole_congr (get?_untagged key doc plain)

/-- A chained stage maps a bucket from its key and its document. -/
theorem map?_tagged {stage : Stage} {marked : Bool} (input : stage.input = .buckets marked) (key : Key)
    (doc : Document) :
    stage.map? (tagged key doc) =
      (stage.maps.foldl Verb.map ⟨(({} : Draft).setKey key marked).setDocument (untagged key doc),
        untagged key doc⟩).draft.finish? := by
  have read : (tagged key doc).get? Field.key = some key.toValue := get?_insert_self doc _ _
  simp only [map?, start?, input, Option.bind_eq_bind, read, Option.bind_some, Key.ofValue?_toValue,
    Option.pure_def]
  rfl

end Stage

/-! ## What a stage relies on, and what it stores -/

/-- No verb takes a key part away, and the slots are 64-bit numbers. -/
structure Plain (verbs : List Verb) : Prop where
  unchained : ∀ v ∈ verbs, v.isChained = false
  short : verbs.length < 2 ^ 63

/-- The key of a bucket of a stage tells the value of a breakdown. -/
def Told (verbs : List Verb) (stage : Stage) (key : Key) (name : String) (value : Value) : Prop :=
  Plain verbs → Tells (stage.maps.countP Verb.isIndex) (Verb.keySlot verbs name) key value

/-- A document that a stage can fold into a bucket, in a pipeline of these verbs. -/
abbrev Stage.Reads (verbs : List Verb) (stage : Stage) (key : Key) (d : Document) : Prop :=
  Readable (Verb.keySlot verbs) (Told verbs stage key) stage.reduces d

/-- A document that a stage may have stored in a bucket. -/
abbrev Stage.Holds (verbs : List Verb) (stage : Stage) (key : Key) (d : Document) : Prop :=
  Aggregate (Verb.keySlot verbs) (Told verbs stage key) stage.reduces d

/-- A stage that merges the buckets of the stage before it, which go where their keys tell. -/
structure Merges (verbs : List Verb) (parent child : Stage) (route : Key → Option Key) : Prop where
  counting : Counting child.reduces
  map? : ∀ key d, parent.Reads verbs key d →
    child.map? (Stage.tagged key d) = (route key).map fun key' => (key', Stage.untagged key d)
  reads : ∀ key key' d, parent.Holds verbs key d → route key = some key' →
    child.Reads verbs key' (Stage.untagged key d)
  linear : ∀ field, Linear child.reduces field → Linear parent.reduces field ∨
    ∃ source, .countUniqueValues source field ∈ parent.reduces

theorem Linear.ne_key {reduces : List Verb} (counting : Counting reduces) {field : String}
    (linear : Linear reduces field) : field ≠ Field.key := by
  rcases linear with rfl | mem
  · decide
  · exact counting.apart.ne_key mem rfl

/-! ## Dropping index parts -/

/-- Where a bucket goes when its index parts are dropped. -/
def dropRoute (key : Key) : Option Key :=
  let draft := ({} : Draft).setKey key true
  if draft.rejected then none else some ⟨draft.normal⟩

/-- The stage that drops index parts. -/
def dropStage (reduces : List Verb) : Stage := ⟨[.dropIndex], reduces, .buckets true⟩

theorem marker?_ofNat {n : Nat} (small : n < 2 ^ 63) : Draft.marker? (.int (Int64.ofNat n)) = some n := by
  rw [Draft.marker?, KeyPart.int?, Option.bind_some, Int64.toInt_ofNat_of_lt small]
  simp

theorem setKey_marked {key : Key} {draft : Draft} (told : key.parts = draft.parts ++ draft.marker)
    (indexed : draft.index ≠ []) (small : draft.index.length < 2 ^ 63) :
    ({} : Draft).setKey key true = { index := draft.index, normal := draft.normal } := by
  rw [Draft.marker, if_neg indexed] at told
  have marked := marker?_ofNat small
  simp [Draft.setKey, told, marked, Draft.parts]

theorem Tells.dropRoute {index slot : Nat} {key key' : Key} {value : Value} (positive : 0 < index)
    (small : index < 2 ^ 63) (tells : Tells index slot key value) (routed : dropRoute key = some key') :
    Tells 0 slot key' value := by
  obtain ⟨draft, part, rfl, told, found, own⟩ := tells
  rw [Rollup.dropRoute, setKey_marked told (List.ne_nil_of_length_pos positive) small] at routed
  cases routed
  exact ⟨{ normal := draft.normal }, part, rfl, by simp [Draft.parts, Draft.marker], found, own⟩

theorem map?_dropStage (reduces : List Verb) (key : Key) (d : Document) :
    (dropStage reduces).map? (Stage.tagged key d) =
      (dropRoute key).map fun key' => (key', Stage.untagged key d) := by
  rw [Stage.map?_tagged rfl]
  show (Draft.dropIndex _).finish? = _
  rw [Draft.finish?, Rollup.dropRoute]
  split
  · next gone => exact (by simp only [if_pos (show (({} : Draft).setKey key true).rejected = true from gone)]; rfl)
  · next kept =>
    simp only [if_neg (show ¬ (({} : Draft).setKey key true).rejected = true from kept)]
    simp [Draft.parts, Draft.marker, Draft.dropIndex, Draft.setDocument]

theorem merges_dropStage {verbs : List Verb} (parent : Stage) (counting : Counting parent.reduces)
    (indexed : 0 < parent.maps.countP Verb.isIndex)
    (short : parent.maps.length ≤ verbs.length) :
    Merges verbs parent (dropStage parent.reduces) dropRoute where
  counting := counting
  map? key d _ := map?_dropStage parent.reduces key d
  reads key key' d holds routed := by
    have plain : ∀ {f : String}, f ≠ Field.key → (Stage.untagged key d).get? f = d.get? f :=
      Stage.get?_untagged key d
    refine ⟨?_, ?_, ?_, ?_⟩
    · rw [plain (by decide)]
      exact holds.count
    · intro name mem
      exact .inr (by rw [plain (counting.apart.ne_key mem rfl)]; exact holds.tallied name mem)
    · intro field name mem
      rw [Stage.state?_untagged]
      exact holds.state field name mem
    · intro field name mem
      obtain ⟨value, found, told⟩ := holds.breakdown field name mem
      refine ⟨value, by rw [plain (counting.apart.ne_key mem rfl)]; exact found, fun plainVerbs => ?_⟩
      have small : parent.maps.countP Verb.isIndex < 2 ^ 63 :=
        Nat.lt_of_le_of_lt (Nat.le_trans List.countP_le_length short) plainVerbs.short
      exact (told plainVerbs).dropRoute indexed small routed
  linear field linear := .inl linear

/-! ## Merging counted values -/

/-- Where a bucket goes when the part in a slot is cleared.  A slot beyond the range of a state is
not found again. -/
def tallyRoute (slot : Nat) (key : Key) : Option Key :=
  (Draft.marker? (.int (Int64.ofNat slot))).map fun found => ⟨key.parts.set found .null⟩

/-- The verbs that fold after a unique count was merged. -/
def tallied (field name : String) (reduces : List Verb) : List Verb :=
  reduces.map fun v => if v = .countUniqueValues field name then .uniqueTally name else v

/-- The stage that merges the buckets of a unique count. -/
def tallyStage (field name : String) (reduces : List Verb) : Stage :=
  ⟨[.uniqueTally name], tallied field name reduces, .buckets false⟩

section Tally

variable {field name : String} {reduces : List Verb}

theorem mem_tallied {v : Verb} (mem : v ∈ tallied field name reduces) :
    v ∈ reduces ∨ v = .uniqueTally name := by
  obtain ⟨u, member, rfl⟩ := List.mem_map.1 mem
  split
  · exact .inr rfl
  · exact .inl member

/-- A unique count that is merged is not a unique count any more. -/
theorem countUniqueValues_mem_tallied {source other : String} :
    .countUniqueValues source other ∈ tallied field name reduces ↔
      .countUniqueValues source other ∈ reduces ∧
        Verb.countUniqueValues source other ≠ .countUniqueValues field name := by
  rw [tallied, List.mem_map]
  constructor
  · rintro ⟨v, mem, made⟩
    split at made
    · cases made
    · next apart =>
      subst made
      exact ⟨mem, apart⟩
  · rintro ⟨mem, apart⟩
    exact ⟨_, mem, if_neg apart⟩

theorem filterMap_tallied : (tallied field name reduces).filterMap Verb.field? =
    reduces.filterMap Verb.field? := by
  rw [tallied, List.filterMap_map]
  congr 1
  funext v
  simp only [Function.comp_apply]
  split
  · next same => rw [same]; rfl
  · rfl

theorem Counting.tallied (counting : Counting reduces) : Counting (tallied field name reduces) where
  head := by
    obtain ⟨rest, rfl⟩ := counting.head
    exact ⟨_, rfl⟩
  apart := by
    have apart := counting.apart
    exact ⟨by rw [filterMap_tallied]; exact apart.nodup, by rw [filterMap_tallied]; exact apart.visible⟩

theorem slot?_of_state? {input : Document} {slot : Nat}
    (state : Mean.state? input name = some (Verb.slotState slot)) :
    Verb.slot? input name = Draft.marker? (.int (Int64.ofNat slot)) := by
  rw [Mean.state?, Option.bind_eq_some_iff] at state
  obtain ⟨states, found, state⟩ := state
  simp only [Verb.slot?, found, state, Option.bind_eq_bind, Option.bind_some, Verb.slotState,
    get?_insert_self, Value.int?, Draft.marker?, KeyPart.int?]

theorem Tells.tallyRoute {slot counted : Nat} {key key' : Key} {value : Value} (small : counted < 2 ^ 63)
    (other : slot ≠ counted) (tells : Tells 0 slot key value)
    (routed : tallyRoute counted key = some key') : Tells 0 slot key' value := by
  obtain ⟨draft, part, unindexed, told, found, own⟩ := tells
  have unindexed : draft.index = [] := List.eq_nil_of_length_eq_zero unindexed
  rw [Draft.parts, Draft.marker, unindexed, if_pos rfl, List.append_nil, List.nil_append] at told
  rw [Rollup.tallyRoute, marker?_ofNat small] at routed
  cases routed
  refine ⟨{ normal := key.parts.set counted .null }, part, rfl, by simp [Draft.parts, Draft.marker], ?_, own⟩
  rw [told, List.getElem?_set_ne other.symm]
  exact found

theorem map?_tallyStage {verbs : List Verb} {parent : Stage}
    (counted : .countUniqueValues field name ∈ parent.reduces) {key : Key} {d : Document}
    (reads : parent.Reads verbs key d) :
    (tallyStage field name reduces).map? (Stage.tagged key d) =
      (tallyRoute (Verb.keySlot verbs name) key).map fun key' => (key', Stage.untagged key d) := by
  have state := reads.state field name counted
  rw [← Stage.state?_untagged key] at state
  rw [Stage.map?_tagged rfl]
  simp only [tallyStage, List.foldl_cons, List.foldl_nil, Verb.map, slot?_of_state? state, Rollup.tallyRoute]
  cases Draft.marker? (.int (Int64.ofNat (Verb.keySlot verbs name))) with
  | none => rfl
  | some slot =>
    simp [Draft.finish?, Draft.parts, Draft.marker, Draft.clearSlot, Draft.setDocument, Draft.setKey]

theorem merges_tallyStage {verbs : List Verb} (apart : Verb.Apart verbs) {parent : Stage}
    (counting : Counting parent.reduces) (unindexed : parent.maps.countP Verb.isIndex = 0)
    (counted : .countUniqueValues field name ∈ parent.reduces)
    (parts : ∀ v ∈ parent.reduces, v.makesPart = true → v ∈ verbs) :
    Merges verbs parent (tallyStage field name parent.reduces)
      (tallyRoute (Verb.keySlot verbs name)) where
  counting := counting.tallied
  map? key d reads := map?_tallyStage counted reads
  reads key key' d holds routed := by
    have plain : ∀ {f : String}, f ≠ Field.key → (Stage.untagged key d).get? f = d.get? f :=
      Stage.get?_untagged key d
    have apartChild : Verb.Apart (tallied field name parent.reduces) := counting.tallied.apart
    refine ⟨?_, ?_, ?_, ?_⟩
    · rw [plain (by decide)]
      exact holds.count
    · intro other mem
      -- The merged count is a tally now; the buckets of the parent hold a presence for it.
      refine .inr ?_
      rw [plain (apartChild.ne_key mem rfl)]
      rcases mem_tallied mem with kept | same
      · exact holds.tallied other kept
      · cases same
        exact ⟨_, holds.presence field name counted⟩
    · intro source other mem
      rw [Stage.state?_untagged]
      rcases mem_tallied mem with kept | same
      · exact holds.state source other kept
      · cases same
    · intro source other mem
      rcases mem_tallied mem with kept | same
      · obtain ⟨value, found, told⟩ := holds.breakdown source other kept
        refine ⟨value, by rw [plain (apartChild.ne_key mem rfl)]; exact found, fun plainVerbs => ?_⟩
        have tells := told plainVerbs
        rw [unindexed] at tells
        have small := Nat.lt_of_le_of_lt (Verb.keySlot_le verbs name) plainVerbs.short
        -- The counted value stands in a slot of its own, so taking it out moves no breakdown's.
        refine tells.tallyRoute small ?_ routed
        exact Verb.keySlot_ne apart (parts _ kept rfl) (parts _ counted rfl) rfl rfl rfl rfl (by simp)
      · cases same
  linear other linear := by
    rcases linear with rfl | mem
    · exact .inl (.inl rfl)
    · rcases mem_tallied mem with kept | same
      · exact .inl (.inr kept)
      · cases same
        exact .inr ⟨field, counted⟩

end Tally

end Rollup
