import Rollup.Proofs.Lineage
import Rollup.Proofs.Verb.Regions

/-!
# What crosses from stage to stage

Whatever a stage can store, the stage behind it accepts, and the key it goes to is the old key without its index
parts and their number, or with the part of one unique count cleared (`boundary_of_stores`).  Which part that is
follows from where the part of every unique count that is still to be merged stands (`held_of_sends`): the
stages before have dropped index parts, which moves no slot, and cleared other slots.
-/

namespace Rollup

/-- An event goes to the bucket of a key in the `n`-th stage of a pipeline. -/
def Pipeline.Sends (p : Pipeline) (event : Document) : Nat → Key → Prop
  | 0, key => ∃ d, p.root.map? event = some (key, d)
  | n + 1, key => ∃ stage next from_ b d, p.stages[n]? = some stage ∧ p.stages[n + 1]? = some next ∧
      p.Sends event n from_ ∧ stage.Stores (p.Emits n) from_ b ∧
      next.map? (Stage.tagged from_ b) = some (key, d)

/-- What the next stage makes of a bucket to which some events go. -/
inductive Boundary (verbs : List Verb) (sent : Document → Prop) (next : Stage) (key : Key) (d : Document) : Prop
  /-- The key loses its index parts and their number. -/
  | stripped (index normal : List KeyPart) (verb : next.maps = [.dropIndex]) (some_ : index ≠ [])
      (told : key.parts = index ++ normal ++ [.int (Int64.ofNat index.length)])
      (regions : ∀ event, sent event →
        (Verb.draft verbs event).index = index ∧ (Verb.draft verbs event).normal = normal)
      (mapped : next.map? (Stage.tagged key d) = some (⟨normal⟩, Stage.untagged key d))
  /-- One part is cleared, the one that a unique count has made of its field. -/
  | collapsed (before after : List Verb) (field name : String) (verb : next.maps = [.uniqueTally name])
      (split : verbs = before ++ .countUniqueValues field name :: after)
      (own : ∀ event, sent event → ∃ part, Document.part? (Verb.seen before event) field = some part ∧
        Verb.Held verbs part key.parts[before.countP Verb.makesPart]?)
      (mapped : next.map? (Stage.tagged key d) =
        some (⟨key.parts.set (before.countP Verb.makesPart) .null⟩, Stage.untagged key d))

/-! ## Events and keys -/

section Events

variable {p : Pipeline} {n : Nat} {stage : Stage} {key : Key} {d : Document}

/-- What is emitted under a key comes from an event that goes there. -/
theorem Pipeline.Emits.exists_sends (emits : p.Emits n key d) : ∃ event, p.Sends event n key := by
  induction n generalizing key d with
  | zero =>
    obtain ⟨event, mapped⟩ := emits
    exact ⟨event, d, mapped⟩
  | succ n ih =>
    obtain ⟨stage, next, at_, at_next, from_, b, stores, mapped⟩ := emits
    obtain ⟨e, emitted⟩ := stores.exists_emitted
    obtain ⟨event, sends⟩ := ih emitted
    exact ⟨event, stage, next, from_, b, d, at_, at_next, sends, stores, mapped⟩

theorem Stage.Stores.exists_sends (stores : stage.Stores (p.Emits n) key d) : ∃ event, p.Sends event n key :=
  stores.exists_emitted.elim fun _ emitted => emitted.exists_sends

end Events

namespace Pipeline

variable {verbs : List Verb} {event : Document} {n : Nat} {stage next : Stage} {key : Key} {d : Document}

/-- A key of the root tells what the verbs made of an event. -/
theorem parts_of_sends (sends : (ofVerbs verbs).Sends event 0 key) :
    (Verb.draft (composition verbs) event).rejected = false ∧
      key.parts = (Verb.draft (composition verbs) event).parts ++ (Verb.draft (composition verbs) event).marker := by
  obtain ⟨d, mapped⟩ := sends
  obtain ⟨draft, rfl, kept, told, -⟩ := root_map?_eq mapped
  exact ⟨kept, told⟩

/-- Counting first changes no index. -/
theorem keepsIndex_composition (keeps : Verb.KeepsIndex verbs) : Verb.KeepsIndex (composition verbs) := by
  intro before field after split last drops
  cases before with
  | nil => cases split
  | cons v front =>
    obtain ⟨-, split⟩ := List.cons.inj split
    obtain ⟨l, l', rfl, -, split⟩ := List.filter_eq_append_iff.1 split
    obtain ⟨m, m', rfl, -, -, rfl⟩ := List.filter_eq_cons_iff.1 split
    refine keeps (l ++ m) field m' (List.append_assoc _ _ _).symm (fun v mem => ?_) (List.mem_of_mem_filter drops)
    by_cases counts : v = .countDocuments
    · rw [counts]
      rfl
    · exact last v (List.mem_filter.2 ⟨mem, decide_eq_true counts⟩)

section Indexed

variable (keeps : Verb.KeepsIndex (composition verbs)) (short : (composition verbs).length < 2 ^ 63)
  (indexed : 0 < (composition verbs).countP Verb.isIndex) (sends : (ofVerbs verbs).Sends event 0 key)

include keeps indexed sends

/-- With an index, a key of the root ends in the number of its index parts. -/
theorem marked_of_sends : (Verb.draft (composition verbs) event).index ≠ [] ∧
    key.parts = (Verb.draft (composition verbs) event).index ++ (Verb.draft (composition verbs) event).normal ++
      [.int (Int64.ofNat (Verb.draft (composition verbs) event).index.length)] := by
  obtain ⟨kept, told⟩ := parts_of_sends sends
  have some_ := Verb.index_draft_ne_nil keeps indexed kept
  rw [Draft.marker, if_neg some_, Draft.parts] at told
  exact ⟨some_, told⟩

include short

/-- So both regions can be read back. -/
theorem setKey_of_sends : ({} : Draft).setKey key true = {
    index := (Verb.draft (composition verbs) event).index
    normal := (Verb.draft (composition verbs) event).normal } :=
  setKey_marked (parts_of_sends sends).2 (marked_of_sends keeps indexed sends).1
    ((Verb.length_index_draft_le _ event).trans_lt short)

theorem dropRoute_of_sends : dropRoute key = some ⟨(Verb.draft (composition verbs) event).normal⟩ := by
  rw [dropRoute, setKey_of_sends keeps short indexed sends]
  rfl

end Indexed

/-! ## The slots of unique counts -/

section Apart

variable (apart : ColumnsApart verbs)

include apart

/-- Only the root reads events. -/
theorem eq_zero_of_root (at_ : (ofVerbs verbs).stages[n]? = some (Stage.root (composition verbs))) : n = 0 := by
  cases n with
  | zero => rfl
  | succ n =>
    obtain ⟨inside, -⟩ := List.getElem?_eq_some_iff.1 at_
    have follows := follows_of_adjacent apart (List.getElem?_eq_getElem (Nat.lt_of_succ_lt inside)) at_
    exact absurd rfl follows.input_ne

variable (keeps : Verb.KeepsIndex (composition verbs)) (short : (composition verbs).length < 2 ^ 63)

include keeps short

/-- The part of a unique count that is not merged yet stands in its slot. -/
theorem held_of_sends {before after : List Verb} {field name : String}
    (split : composition verbs = before ++ .countUniqueValues field name :: after)
    (at_ : (ofVerbs verbs).stages[n]? = some stage) (unindexed : stage.maps.countP Verb.isIndex = 0)
    (counted : .countUniqueValues field name ∈ stage.reduces) (sends : (ofVerbs verbs).Sends event n key) :
    ∃ part, Document.part? (Verb.seen before event) field = some part ∧
      Verb.Held (composition verbs) part key.parts[before.countP Verb.makesPart]? := by
  induction n generalizing stage key with
  | zero =>
    cases at_
    obtain ⟨kept, told⟩ := parts_of_sends sends
    -- Without index parts the slots of the key are those of the normal parts.
    have none : (Verb.draft (composition verbs) event).index = [] := Verb.index_draft_eq_nil unindexed event
    rw [told, Draft.parts, Draft.marker, none, if_pos rfl, List.append_nil, List.nil_append]
    rw [split] at kept ⊢
    exact Verb.held_draft kept
  | succ n ih =>
    obtain ⟨parent, child, from_, b, d, at_parent, at_child, sends, stores, mapped⟩ := sends
    obtain rfl : stage = child := Option.some.inj (at_.symm.trans at_child)
    have reads := (holds_of_stores apart at_parent stores).toReadable
    cases follows_of_adjacent apart at_parent at_child with
    | drop indexed =>
      -- The key that is left is the normal region as the root has made it.
      obtain rfl := eq_zero_of_root apart at_parent
      rw [map?_dropStage, dropRoute_of_sends keeps short indexed sends] at mapped
      cases mapped
      obtain ⟨kept, -⟩ := parts_of_sends sends
      rw [split] at kept ⊢
      exact Verb.held_draft kept
    | @tally _ source other counting unindexed' merged parts =>
      obtain ⟨kept, different⟩ := countUniqueValues_mem_tallied.1 counted
      obtain ⟨part, found, held⟩ := ih at_parent unindexed' kept sends
      have small := (Verb.keySlot_le (composition verbs) other).trans_lt short
      rw [map?_tallyStage merged reads, tallyRoute, marker?_ofNat small] at mapped
      cases mapped
      -- The stage clears the part of another unique count, which stands in another slot.
      have columns := (counting_composition apart).apart
      have other_slot := Verb.keySlot_ne columns (parts _ merged rfl) (parts _ kept rfl) rfl rfl rfl rfl
        different.symm
      refine ⟨part, found, ?_⟩
      rw [List.getElem?_set_ne (Verb.keySlot_of_split columns split rfl ▸ other_slot)]
      exact held

/-- Whatever a stage can store, the next stage accepts it, and what becomes of its key is told. -/
theorem boundary_of_stores (at_ : (ofVerbs verbs).stages[n]? = some stage)
    (at_next : (ofVerbs verbs).stages[n + 1]? = some next) (stores : stage.Stores ((ofVerbs verbs).Emits n) key d) :
    Boundary (composition verbs) (fun event => (ofVerbs verbs).Sends event n key) next key d := by
  cases follows_of_adjacent apart at_ at_next with
  | drop indexed =>
    obtain rfl := eq_zero_of_root apart at_
    obtain ⟨event, sends⟩ := stores.exists_sends
    obtain ⟨some_, told⟩ := marked_of_sends keeps indexed sends
    have read := setKey_of_sends keeps short indexed sends
    refine .stripped _ _ rfl some_ told (fun other sends' => ?_) ?_
    · have same := (setKey_of_sends keeps short indexed sends').symm.trans read
      injection same with _ index normal
      exact ⟨index, normal⟩
    · rw [map?_dropStage, dropRoute_of_sends keeps short indexed sends]
      rfl
  | @tally _ field name counting unindexed counted parts =>
    have columns := (counting_composition apart).apart
    obtain ⟨before, after, split⟩ := List.append_of_mem (parts _ counted rfl)
    refine .collapsed before after field name rfl split
      (fun event sends => held_of_sends apart keeps short split at_ unindexed counted sends) ?_
    have small := (Verb.keySlot_le (composition verbs) name).trans_lt short
    rw [map?_tallyStage counted (holds_of_stores apart at_ stores).toReadable, tallyRoute, marker?_ofNat small,
      Verb.keySlot_of_split columns split rfl]
    rfl

end Apart

end Pipeline

end Rollup
