import Rollup.Pipeline
import Rollup.Proofs.Stage.Routing

/-!
# Pipelines are chains of merging stages

Every stage of `Pipeline.ofVerbs` but the root drops index parts or merges one unique count (`Follows`), so
where the columns of the verbs are apart it merges the buckets of the stage before it (`chained_ofVerbs`).
-/

namespace Rollup

/-- Every stage merges the buckets of the stage before it. -/
def Chained (verbs : List Verb) (stages : List Stage) : Prop :=
  List.IsChain (fun parent child => ∃ route, Merges verbs parent child route) stages

/-- The columns of verbs are pairwise distinct, and none has a reserved name. -/
structure ColumnsApart (verbs : List Verb) : Prop where
  distinct : (verbs.filterMap Verb.column?).Nodup
  unreserved : ∀ name ∈ verbs.filterMap Verb.column?,
    name ≠ Field.count ∧ name ≠ Field.key ∧ name ≠ Field.intermediate

namespace Pipeline

theorem filterMap_field?_composition (verbs : List Verb) :
    (composition verbs).filterMap Verb.field? = Field.count :: verbs.filterMap Verb.column? := by
  rw [composition, List.filterMap_cons]
  show Field.count :: _ = _
  congr 1
  induction verbs with
  | nil => rfl
  | cons v rest ih =>
    cases v with
    | countDocuments | only _ _ | indexedBy _ | transformDateFormat _ _ _ | dropIndex => exact ih
    | brokenDownBy _ name | sum _ name | mean _ name | countUniqueValues _ name | uniqueTally name =>
      exact congrArg (name :: ·) ih

/-- A composition counts first, and its verbs write different fields. -/
theorem counting_composition {verbs : List Verb} (apart : ColumnsApart verbs) :
    Counting (composition verbs) where
  head := ⟨_, rfl⟩
  apart := by
    constructor
    · rw [filterMap_field?_composition, List.nodup_cons]
      exact ⟨fun mem => (apart.unreserved _ mem).1 rfl, apart.distinct⟩
    · intro f mem
      rw [filterMap_field?_composition] at mem
      rcases List.mem_cons.1 mem with rfl | mem
      · decide
      · exact ⟨(apart.unreserved f mem).2.2, (apart.unreserved f mem).2.1⟩

/-- How a chain goes on behind a stage. -/
inductive Follows (verbs : List Verb) : Stage → Stage → Prop
  /-- The index parts that the root adds are dropped. -/
  | drop (indexed : 0 < verbs.countP Verb.isIndex) :
      Follows verbs (Stage.root verbs) (dropStage (Stage.root verbs).reduces)
  /-- A unique count that is not merged yet is merged. -/
  | tally {parent : Stage} {field name : String} (counting : Counting parent.reduces)
      (unindexed : parent.maps.countP Verb.isIndex = 0)
      (counted : .countUniqueValues field name ∈ parent.reduces)
      (parts : ∀ v ∈ parent.reduces, v.makesPart = true → v ∈ verbs) :
      Follows verbs parent (tallyStage field name parent.reduces)

theorem Follows.merges {verbs : List Verb} {parent child : Stage} (counting : Counting verbs)
    (follows : Follows verbs parent child) : ∃ route, Merges verbs parent child route := by
  cases follows with
  | drop indexed => exact ⟨_, merges_dropStage _ counting.filter_reduces indexed (Nat.le_refl _)⟩
  | tally counting' unindexed counted parts =>
    exact ⟨_, merges_tallyStage counting.apart counting' unindexed counted parts⟩

/-- Only the root reads events. -/
theorem Follows.input_ne {verbs : List Verb} {parent child : Stage} (follows : Follows verbs parent child) :
    child.input ≠ .events := by
  cases follows <;> nofun

/-- Behind a stage that adds no index parts, one stage follows another for every unique count. -/
theorem follows_tallyStages {all : List Verb} (verbs : List Verb)
    (nodup : (verbs.filterMap Verb.field?).Nodup) (parent : Stage) (counting : Counting parent.reduces)
    (unindexed : parent.maps.countP Verb.isIndex = 0)
    (counted : ∀ field name, .countUniqueValues field name ∈ verbs →
      .countUniqueValues field name ∈ parent.reduces)
    (parts : ∀ v ∈ parent.reduces, v.makesPart = true → v ∈ all) :
    List.IsChain (Follows all) (parent :: tallyStages parent.reduces verbs) := by
  induction verbs generalizing parent with
  | nil => exact List.isChain_singleton _
  | cons v rest ih =>
    have later : ∀ field name, .countUniqueValues field name ∈ rest →
        .countUniqueValues field name ∈ parent.reduces :=
      fun field name mem => counted field name (List.mem_cons_of_mem _ mem)
    cases v with
    | countUniqueValues field name =>
      rw [List.filterMap_cons] at nodup
      obtain ⟨fresh, nodup⟩ := List.nodup_cons.1 nodup
      -- The induction is on the verbs left; the stage made here is the parent of the rest.
      have follows := Follows.tally counting unindexed (counted field name List.mem_cons_self) parts
      refine List.isChain_cons_cons.2 ⟨follows, ?_⟩
      refine ih nodup (tallyStage field name parent.reduces) counting.tallied rfl ?_ ?_
      · intro source other mem
        refine List.mem_map.2 ⟨_, later source other mem, if_neg ?_⟩
        intro same
        cases same
        exact fresh (List.mem_filterMap.2 ⟨_, mem, rfl⟩)
      · intro u mem makes
        rcases mem_tallied mem with kept | rfl
        · exact parts u kept makes
        · cases makes
    | brokenDownBy _ _ | sum _ _ | mean _ _ | uniqueTally _ | countDocuments =>
      exact ih (List.nodup_cons.1 nodup).2 parent counting unindexed later parts
    | only _ _ | indexedBy _ | transformDateFormat _ _ _ | dropIndex =>
      exact ih nodup parent counting unindexed later parts

/-- What stands in the chain behind a stage. -/
theorem follows_ofVerbs {verbs : List Verb} (apart : ColumnsApart verbs) :
    List.IsChain (Follows (composition verbs)) (ofVerbs verbs).stages := by
  have counting := counting_composition apart
  have reducing := counting.filter_reduces
  have counted : ∀ field name, .countUniqueValues field name ∈ composition verbs →
      .countUniqueValues field name ∈ (composition verbs).filter Verb.reduces :=
    fun field name mem => List.mem_filter.2 ⟨mem, rfl⟩
  have parts : ∀ v ∈ (composition verbs).filter Verb.reduces, v.makesPart = true → v ∈ composition verbs :=
    fun v mem _ => List.mem_of_mem_filter mem
  show List.IsChain _ (Stage.root _ :: (indexStages _ _ ++ tallyStages _ _))
  rw [indexStages]
  split
  · next indexed =>
    have positive : 0 < (composition verbs).countP Verb.isIndex :=
      List.countP_pos_iff.2 (List.any_eq_true.1 indexed)
    refine List.isChain_cons_cons.2 ⟨.drop positive, ?_⟩
    exact follows_tallyStages _ counting.apart.nodup (dropStage (Stage.root (composition verbs)).reduces) reducing
      rfl counted parts
  · next plain =>
    have unindexed : (composition verbs).countP Verb.isIndex = 0 := by
      rw [List.countP_eq_zero]
      intro v mem indexes
      exact plain (List.any_eq_true.2 ⟨v, mem, indexes⟩)
    exact follows_tallyStages _ counting.apart.nodup (Stage.root (composition verbs)) reducing unindexed counted parts

theorem chained_ofVerbs {verbs : List Verb} (apart : ColumnsApart verbs) :
    Chained (composition verbs) (ofVerbs verbs).stages :=
  (follows_ofVerbs apart).imp fun _ _ follows => follows.merges (counting_composition apart)

end Pipeline

end Rollup
