import Rollup.Proofs.Query
import Rollup.Proofs.Verb.Parts

/-!
# The layout of a compiled query

The verbs of a query tell the stages: behind the root, one stage drops the index parts if there are any, and one
stage for each unique count follows.  All of them fold what the root folds, but for the unique counts merged so
far, which are tallies there (`tallyStages_eq`).
-/

namespace Rollup

/-! ## Stages -/

namespace Verb

/-- The unique counts among verbs. -/
def uniques (verbs : List Verb) : List Verb := verbs.filter fun v => v.counted?.isSome

/-- The verb by which a chained stage merges what this verb told apart. -/
def tally (v : Verb) : Verb := v.chained?.getD v

/-- What a stage folds in place of a verb, behind the stages that merged some unique counts. -/
def merged (done : List Verb) (v : Verb) : Verb := if v ∈ done then v.tally else v

/-- A count that was merged is not merged again. -/
theorem merged_merged {field name : String} {later : List Verb} (counts : ∀ u ∈ later, u.counted?.isSome = true)
    (v : Verb) :
    merged later (if v = .countUniqueValues field name then .uniqueTally name else v) =
      merged (.countUniqueValues field name :: later) v := by
  by_cases own : v = .countUniqueValues field name
  · have tallied : Verb.uniqueTally name ∉ later := fun mem => by cases counts _ mem
    subst own
    rw [if_pos rfl, merged, if_neg tallied, merged, if_pos List.mem_cons_self]
    rfl
  · rw [if_neg own]
    simp only [merged, List.mem_cons, own, false_or]

end Verb

namespace Pipeline

open Verb

/-- There is a stage for each unique count, in their order, that folds the counts up to it as tallies. -/
theorem tallyStages_eq (reduces verbs : List Verb) :
    tallyStages reduces verbs = (uniques verbs).mapIdx fun k v =>
      ⟨[v.tally], reduces.map (merged ((uniques verbs).take (k + 1))), .buckets false⟩ := by
  induction verbs generalizing reduces with
  | nil => rfl
  | cons v rest ih =>
    cases v with
    | countUniqueValues field name =>
      have split : uniques (.countUniqueValues field name :: rest) =
          .countUniqueValues field name :: uniques rest := rfl
      have later (n : Nat) : ∀ u ∈ (uniques rest).take n, u.counted?.isSome = true :=
        fun u mem => (List.mem_filter.1 (List.mem_of_mem_take mem)).2
      rw [tallyStages, ih, split, List.mapIdx_cons]
      congr 1
      · exact congrArg (Stage.mk _ · _) (List.map_congr_left fun v _ => merged_merged (later 0) v)
      · refine List.mapIdx_eq_mapIdx_iff.2 fun k _ => ?_
        rw [List.map_map, List.take_succ_cons]
        exact congrArg (Stage.mk _ · _) (List.map_congr_left fun v _ => merged_merged (later (k + 1)) v)
    | countDocuments | only _ _ | brokenDownBy _ _ | sum _ _ | mean _ _ | indexedBy _
    | transformDateFormat _ _ _ | dropIndex | uniqueTally _ => exact ih reduces

/-- What stands behind the root of verbs that do not count documents themselves. -/
theorem chain_ofVerbs {verbs : List Verb} (composed : composition verbs = .countDocuments :: verbs) :
    (ofVerbs verbs).chain =
      (if verbs.any isIndex then [⟨[.dropIndex], (ofVerbs verbs).root.reduces, .buckets true⟩] else []) ++
        (uniques verbs).mapIdx fun k v =>
          ⟨[v.tally], (ofVerbs verbs).root.reduces.map (merged ((uniques verbs).take (k + 1))), .buckets false⟩ := by
  have root : (ofVerbs verbs).root = Stage.root (.countDocuments :: verbs) := congrArg Stage.root composed
  show indexStages _ _ ++ tallyStages _ _ = _
  rw [tallyStages_eq, composed, root]
  rfl

/-- The index parts are dropped behind the root, and nowhere else. -/
theorem eq_one_of_marked {verbs : List Verb} {i : Nat} {stage : Stage}
    (found : (ofVerbs verbs).stages[i]? = some stage) (marked : stage.input = .buckets true) :
    i = 1 ∧ stage.maps = [.dropIndex] := by
  have unmarked (k : Nat) {reduces verbs : List Verb} (found : (tallyStages reduces verbs)[k]? = some stage) :
      False := by
    rw [tallyStages_eq, List.getElem?_mapIdx] at found
    obtain ⟨v, -, rfl⟩ := Option.map_eq_some_iff.1 found
    cases marked
  match i with
  | 0 =>
    cases found
    cases marked
  | i + 1 =>
    change (indexStages _ _ ++ tallyStages _ _)[i]? = some stage at found
    rw [indexStages] at found
    split at found
    · cases i with
      | zero =>
        cases found
        exact ⟨rfl, rfl⟩
      | succ i => exact (unmarked i found).elim
    · exact (unmarked i found).elim

end Pipeline

namespace Query

open Verb

theorem composition_toVerb (clauses : List Clause) :
    Pipeline.composition (clauses.map Clause.toVerb) = .countDocuments :: clauses.map Clause.toVerb := by
  rw [Pipeline.composition, List.filter_eq_self.2]
  intro v mem
  obtain ⟨clause, -, rfl⟩ := List.mem_map.1 mem
  cases clause <;> simp [Clause.toVerb]

theorem compile_eq_error_iff (q : Query) (e : QueryError) :
    q.compile = .error e ↔ ∃ front clause back, q.clauses = front ++ clause :: back ∧
      (∀ c ∈ front, c.Complete) ∧ clause.fault? = some e := by
  have failed : q.compile = .error e ↔ q.clauses.findSome? Clause.fault? = some e := by
    rw [compile, Clause.mapM_verb_eq]
    cases q.clauses.findSome? Clause.fault? <;> simp [Except.map]
  rw [failed, List.findSome?_eq_some_iff]
  constructor
  · rintro ⟨front, clause, back, split, fault, complete⟩
    exact ⟨front, clause, back, split, fun c mem => (Clause.fault?_eq_none_iff c).1 (complete c mem), fault⟩
  · rintro ⟨front, clause, back, split, complete, fault⟩
    exact ⟨front, clause, back, split, fault, fun c mem => (Clause.fault?_eq_none_iff c).2 (complete c mem)⟩

theorem compile_eq_ok_iff (q : Query) (p : Pipeline) :
    q.compile = .ok p ↔ (∀ clause ∈ q.clauses, clause.Complete) ∧ p = .ofVerbs (q.clauses.map Clause.toVerb) := by
  simp only [← Clause.fault?_eq_none_iff, ← List.findSome?_eq_none_iff]
  rw [compile, Clause.mapM_verb_eq]
  cases q.clauses.findSome? Clause.fault? <;> simp [Except.map, eq_comm]

/-- A query compiles clause by clause, from the innermost on, and its stages are laid out by its verbs.

* It compiles exactly if all its clauses are complete, and else fails with the fault of the first one that is
  not: the fault of the first argument, in the order key, name, format, that has one.
* The root counts the documents and then maps by the verbs of the clauses.
* Behind it come a stage that drops the index parts, if there are any, and a stage for each unique count, and no
  other stage than the one for the index parts reads a marker.
* Every one of them folds what the root folds, in the same order, with the unique counts merged so far, and
  nothing else, replaced by their tallies.  This holds of equal unique counts, too: the first one merges them. -/
theorem compiles_in_order (q : Query) :
    let verbs := q.clauses.map Clause.toVerb
    let counts := uniques verbs
    ((∃ p, q.compile = .ok p) ↔ ∀ clause ∈ q.clauses, clause.Complete) ∧
    (∀ e, q.compile = .error e ↔ ∃ front clause back, q.clauses = front ++ clause :: back ∧
      (∀ c ∈ front, c.Complete) ∧ clause.fault? = some e) ∧
    ∀ p, q.compile = .ok p →
      p.root.maps = .countDocuments :: verbs ∧ p.root.reduces = p.root.maps.filter reduces ∧
      p.stages.length = 1 + (if verbs.any isIndex then 1 else 0) + counts.length ∧
      p.chain = (if verbs.any isIndex then [⟨[.dropIndex], p.root.reduces, .buckets true⟩] else []) ++
        counts.mapIdx (fun k v => ⟨[v.tally], p.root.reduces.map (merged (counts.take (k + 1))), .buckets false⟩) ∧
      ∀ i stage, p.stages[i]? = some stage → stage.input = .buckets true → i = 1 ∧ stage.maps = [.dropIndex] := by
  intro verbs counts
  refine ⟨?_, q.compile_eq_error_iff, fun p compiled => ?_⟩
  · constructor
    · rintro ⟨p, compiled⟩
      exact ((q.compile_eq_ok_iff p).1 compiled).1
    · exact fun complete => ⟨_, (q.compile_eq_ok_iff _).2 ⟨complete, rfl⟩⟩
  · obtain ⟨-, rfl⟩ := (q.compile_eq_ok_iff p).1 compiled
    have composed : Pipeline.composition verbs = .countDocuments :: verbs := composition_toVerb q.clauses
    have chain := Pipeline.chain_ofVerbs composed
    refine ⟨composed, rfl, ?_, chain, fun i stage => Pipeline.eq_one_of_marked⟩
    show _ = 1 + _ + (uniques verbs).length
    rw [Pipeline.stages, List.length_cons, chain, List.length_append, List.length_mapIdx]
    split <;> simp only [List.length_cons, List.length_nil] <;> omega

/-- Two unique counts with an index between them, and a clause with two faults below one with another. -/
theorem compiles_in_order_two_counts :
    let users : Verb := .countUniqueValues "User" "Users"
    let pages : Verb := .countUniqueValues "Page" "Pages"
    let q : Query := .appliedTo (.countUniqueValues "Page" "Pages")
      (.appliedTo (.indexedBy "Type") (.appliedTo (.countUniqueValues "User" "Users") .allEvents))
    let faulty : Query := .appliedTo (.sum "" "Total") (.alone (.transformDateFormat "At" "" "Weeks"))
    faulty.compile = .error (.emptyArgument "TransformDateFormat" "name") ∧
    ∃ p, q.compile = .ok p ∧ p.root.maps = [.countDocuments, users, .indexedBy "Type", pages] ∧
      p.stages.length = 4 ∧ p.stages[1]?.map Stage.input = some (.buckets true) ∧
      p.chain.map Stage.reduces = [[.countDocuments, users, pages], [.countDocuments, .uniqueTally "Users", pages],
        [.countDocuments, .uniqueTally "Users", .uniqueTally "Pages"]] := by
  intro users pages q faulty
  obtain ⟨-, refused, -⟩ := compiles_in_order faulty
  obtain ⟨compiles, -, laid⟩ := compiles_in_order q
  obtain ⟨p, compiled⟩ := compiles.2 (by decide +kernel)
  obtain ⟨maps, reduces, length, chain, -⟩ := laid p compiled
  refine ⟨(refused _).2 ⟨[], _, [.sum "" "Total"], rfl, nofun, by decide +kernel⟩, p, compiled, maps, length, ?_⟩
  rw [Pipeline.stages, chain, reduces, maps]
  exact ⟨rfl, rfl⟩

end Query

end Rollup
