import Rollup.Proofs.Pipeline

/-!
# What stages can emit and store

`Pipeline.Emits` says which documents the map of a stage can emit under a key, and `Stage.Stores` which ones the
stage can then store there: it folds what was emitted, merges folds and takes out what was emitted.  Every event
may come in any order and number, so whatever a run makes is among these.  A stage can rely on what it reads
(`reads_of_emits`), and so can what reads its buckets (`holds_of_stores`).
-/

namespace Rollup

/-- The documents that a stage can store under a key, if its map emits these. -/
inductive Stage.Stores (stage : Stage) (emits : Key → Document → Prop) (key : Key) : Document → Prop
  | folded {docs : List Document} {out : Document} (emitted : ∀ d ∈ docs, emits key d)
      (fold : stage.reduce? docs = some out) : Stores stage emits key out
  | merged {stored candidate out : Document} (old : Stores stage emits key stored)
      (new : Stores stage emits key candidate) (fold : stage.rereduce? [stored, candidate] = some out) :
      Stores stage emits key out
  | taken {stored : Document} {docs : List Document} (old : Stores stage emits key stored)
      (emitted : ∀ d ∈ docs, emits key d) : Stores stage emits key (stage.unreduce stored docs)

/-- What a stage emits for the buckets of the stage before it. -/
def Stage.Forwards (stage next : Stage) (emits : Key → Document → Prop) (key : Key) (d : Document) : Prop :=
  ∃ from_ b, stage.Stores emits from_ b ∧ next.map? (Stage.tagged from_ b) = some (key, d)

/-- The documents that the map of the `n`-th stage can emit under a key. -/
def Pipeline.Emits (p : Pipeline) : Nat → Key → Document → Prop
  | 0, key, d => ∃ event, p.root.map? event = some (key, d)
  | n + 1, key, d => ∃ stage next, p.stages[n]? = some stage ∧ p.stages[n + 1]? = some next ∧
      stage.Forwards next (p.Emits n) key d

section Stores

variable {stage : Stage} {emits : Key → Document → Prop} {key : Key} {d : Document}

/-- What is stored under a key was emitted under it. -/
theorem Stage.Stores.exists_emitted (stores : stage.Stores emits key d) : ∃ e, emits key e := by
  induction stores with
  | @folded docs out emitted fold =>
    obtain ⟨e, mem⟩ := List.exists_mem_of_ne_nil docs (reduce?_eq fold).1
    exact ⟨e, emitted e mem⟩
  | merged _ _ _ ih => exact ih
  | taken _ _ ih => exact ih

/-- What is made of documents that a stage can read is an aggregate. -/
theorem Stage.Stores.holds {verbs : List Verb} (counting : Counting stage.reduces)
    (reads : ∀ key d, emits key d → stage.Reads verbs key d) (stores : stage.Stores emits key d) :
    stage.Holds verbs key d := by
  induction stores with
  | folded emitted fold => exact Aggregate.of_reduce? counting (fun d mem => reads _ d (emitted d mem)) fold
  | merged _ _ fold old new =>
    refine Aggregate.of_reduce? counting (fun d mem => ?_) fold
    rcases List.mem_cons.1 mem with rfl | mem
    · exact old.toReadable
    · rw [List.mem_singleton.1 mem]
      exact new.toReadable
  | taken _ _ ih => exact ih.unreduce counting _

end Stores

namespace Pipeline

variable {verbs : List Verb} (apart : ColumnsApart verbs) {n : Nat} {stage next : Stage} {key : Key} {d : Document}

include apart

/-- The chain goes on from each stage to the next. -/
theorem follows_of_adjacent (at_ : (ofVerbs verbs).stages[n]? = some stage)
    (at_next : (ofVerbs verbs).stages[n + 1]? = some next) : Follows (composition verbs) stage next := by
  obtain ⟨_, rfl⟩ := List.getElem?_eq_some_iff.1 at_
  obtain ⟨inside, rfl⟩ := List.getElem?_eq_some_iff.1 at_next
  exact List.isChain_iff_getElem.1 (follows_ofVerbs apart) n inside

/-- A stage merges the buckets of the stage before it. -/
theorem merges_of_adjacent (at_ : (ofVerbs verbs).stages[n]? = some stage)
    (at_next : (ofVerbs verbs).stages[n + 1]? = some next) :
    ∃ route, Merges (composition verbs) stage next route :=
  (follows_of_adjacent apart at_ at_next).merges (counting_composition apart)

theorem counting_of_stage (at_ : (ofVerbs verbs).stages[n]? = some stage) : Counting stage.reduces := by
  cases n with
  | zero =>
    cases at_
    exact (counting_composition apart).filter_reduces
  | succ n =>
    obtain ⟨inside, -⟩ := List.getElem?_eq_some_iff.1 at_
    obtain ⟨route, merges⟩ := merges_of_adjacent apart (List.getElem?_eq_getElem (Nat.lt_of_succ_lt inside)) at_
    exact merges.counting

/-- A stage can rely on all that its map emits. -/
theorem reads_of_emits (at_ : (ofVerbs verbs).stages[n]? = some stage) (emits : (ofVerbs verbs).Emits n key d) :
    stage.Reads (composition verbs) key d := by
  induction n generalizing stage key d with
  | zero =>
    cases at_
    obtain ⟨event, mapped⟩ := emits
    refine (readable_root_map? (counting_composition apart) mapped).mono ?_
    exact fun name value tells plain => tells plain.unchained
  | succ n ih =>
    obtain ⟨parent, child, at_parent, at_child, from_, b, stores, mapped⟩ := emits
    obtain rfl : stage = child := Option.some.inj (at_.symm.trans at_child)
    obtain ⟨route, merges⟩ := merges_of_adjacent apart at_parent at_child
    -- What the stage before can rely on makes its buckets aggregates, which is all that its successor needs.
    have holds := stores.holds (counting_of_stage apart at_parent) fun key d emitted => ih at_parent emitted
    rw [merges.map? from_ b holds.toReadable, Option.map_eq_some_iff] at mapped
    obtain ⟨key', routed, same⟩ := mapped
    cases same
    exact merges.reads from_ key b holds routed

/-- All that a stage can store is an aggregate. -/
theorem holds_of_stores (at_ : (ofVerbs verbs).stages[n]? = some stage)
    (stores : stage.Stores ((ofVerbs verbs).Emits n) key d) : stage.Holds (composition verbs) key d :=
  stores.holds (counting_of_stage apart at_) fun _ _ emitted => reads_of_emits apart at_ emitted

end Pipeline

end Rollup
