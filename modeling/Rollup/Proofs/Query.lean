import Rollup.Query.Basic
import Rollup.Proofs.Pipeline

/-!
# Compiled queries

A query is refused for the first fault of its clauses, innermost clause first, and otherwise every clause
becomes its verb (`mapM_verb_eq`).  The verbs write the columns that the clauses name, and none of them is a
verb of chained stages.
-/

namespace Rollup

open Verb

/-! ## Clauses -/

namespace Clause

/-- The column that a clause names for its results. -/
def output? : Clause → Option String
  | brokenDownBy _ name | sum _ name | mean _ name | countUniqueValues _ name => some name
  | only _ _ | indexedBy _ | transformDateFormat _ _ _ => none

/-- Whether a clause makes the buckets of every value of a field addressable. -/
def isIndex : Clause → Bool
  | indexedBy _ => true
  | _ => false

/-- A clause is complete if its key and name are not empty and its date format is the one that there is. -/
def Complete (clause : Clause) : Prop :=
  ∀ a ∈ clause.arguments, (a.1 = "key" ∨ a.1 = "name" → a.2 ≠ "") ∧ (a.1 = "format" → a.2 = "Days")

instance : DecidablePred Complete := fun clause =>
  inferInstanceAs (Decidable (∀ a ∈ clause.arguments,
    (a.1 = "key" ∨ a.1 = "name" → a.2 ≠ "") ∧ (a.1 = "format" → a.2 = "Days")))

/-- What is wrong with an argument of a clause. -/
def faultOf? (clause : Clause) (a : String × String) : Option QueryError :=
  if (a.1 = "key" ∨ a.1 = "name") ∧ a.2 = "" then some (.emptyArgument clause.label a.1)
  else if a.1 = "format" ∧ a.2 ≠ "Days" then some (.unsupportedDateFormat a.2)
  else none

/-- What is wrong with the first argument that is wrong. -/
def fault? (clause : Clause) : Option QueryError := clause.arguments.findSome? clause.faultOf?

/-- What a clause without faults does. -/
def toVerb : Clause → Verb
  | only key value => .only key value
  | brokenDownBy key name => .brokenDownBy key name
  | sum key name => .sum key name
  | mean key name => .mean key name
  | countUniqueValues key name => .countUniqueValues key name
  | indexedBy key => .indexedBy key
  | transformDateFormat key name _ => .transformDateFormat key name .days

theorem fault?_eq_none_iff (clause : Clause) : clause.fault? = none ↔ clause.Complete := by
  rw [fault?, List.findSome?_eq_none_iff, Complete]
  refine forall₂_congr fun a _ => ?_
  rw [faultOf?]
  by_cases empty : (a.1 = "key" ∨ a.1 = "name") ∧ a.2 = ""
  · simp [empty]
  · by_cases unknown : a.1 = "format" ∧ a.2 ≠ "Days"
    · simp [unknown]
    · simp only [if_neg empty, if_neg unknown, true_iff]
      tauto

theorem verb_eq (clause : Clause) :
    clause.verb = match clause.fault? with
      | some e => .error e
      | none => .ok clause.toVerb := by
  cases clause with
  | only key value | indexedBy key =>
    by_cases keyless : key = "" <;> simp [verb, required, fault?, faultOf?, arguments, toVerb, keyless]
  | brokenDownBy key name | sum key name | mean key name | countUniqueValues key name =>
    by_cases keyless : key = "" <;> by_cases nameless : name = "" <;>
      simp [verb, required, fault?, faultOf?, arguments, toVerb, keyless, nameless] <;> rfl
  | transformDateFormat key name format =>
    by_cases keyless : key = "" <;> by_cases nameless : name = "" <;> by_cases days : format = "Days" <;>
      simp [verb, required, dateFormat, DateFormat.ofLabel?, fault?, faultOf?, arguments, toVerb, keyless, nameless,
        days] <;> rfl

/-- Clauses become their verbs, or the first fault is reported. -/
theorem mapM_verb_eq (clauses : List Clause) :
    clauses.mapM verb = match clauses.findSome? fault? with
      | some e => .error e
      | none => .ok (clauses.map toVerb) := by
  induction clauses with
  | nil => rfl
  | cons clause rest ih =>
    rw [List.mapM_cons, verb_eq, ih, List.findSome?_cons]
    cases clause.fault? with
    | some e => rfl
    | none =>
      cases rest.findSome? fault? <;> rfl

/-- A query is read if none of its clauses has a fault, and then clause by clause. -/
theorem mapM_verb_eq_ok_iff {clauses : List Clause} {verbs : List Verb} :
    clauses.mapM verb = .ok verbs ↔
      (∀ clause ∈ clauses, clause.verb = .ok clause.toVerb) ∧ verbs = clauses.map toVerb := by
  have faultless (clause : Clause) : clause.fault? = none ↔ clause.verb = .ok clause.toVerb := by
    rw [verb_eq]
    cases clause.fault? <;> simp
  rw [mapM_verb_eq, ← forall₂_congr fun clause _ => faultless clause, ← List.findSome?_eq_none_iff]
  cases clauses.findSome? fault? with
  | some e => simp
  | none => simp [eq_comm]

theorem eq_toVerb_of_verb {clause : Clause} {v : Verb} (read : clause.verb = .ok v) : v = clause.toVerb := by
  rw [verb_eq] at read
  split at read
  · cases read
  · exact (Except.ok.inj read).symm

/-! ## Verbs of clauses -/

/-- The verb of a clause writes the column that the clause names. -/
@[simp] theorem column?_toVerb (clause : Clause) : clause.toVerb.column? = clause.output? := by
  cases clause <;> rfl

@[simp] theorem isChained_toVerb (clause : Clause) : clause.toVerb.isChained = false := by
  cases clause <;> rfl

@[simp] theorem isIndex_toVerb (clause : Clause) : clause.toVerb.isIndex = clause.isIndex := by
  cases clause <;> rfl

theorem toVerb_ne_countDocuments (clause : Clause) : clause.toVerb ≠ .countDocuments := by
  cases clause <;> simp [toVerb]

/-- Unique counts come from unique counts. -/
theorem countUniqueValues_iff_of_verb {clause : Clause} {v : Verb} (read : clause.verb = .ok v)
    (field name : String) : v = .countUniqueValues field name ↔ clause = .countUniqueValues field name := by
  rw [eq_toVerb_of_verb read]
  cases clause <;> simp [toVerb]

/-- Breakdowns become breakdowns. -/
theorem brokenDownBy_of_verb {field name : String} {v : Verb}
    (read : (Clause.brokenDownBy field name).verb = .ok v) : v = .brokenDownBy field name :=
  eq_toVerb_of_verb read

theorem indexedBy_of_verb {field : String} {v : Verb} (read : (Clause.indexedBy field).verb = .ok v) :
    v = .indexedBy field :=
  eq_toVerb_of_verb read

section Read

variable {clauses : List Clause} {verbs : List Verb} (read : clauses.mapM verb = .ok verbs)

include read

theorem exists_of_mem_verbs {v : Verb} (mem : v ∈ verbs) : ∃ clause ∈ clauses, clause.verb = .ok v := by
  obtain ⟨each, rfl⟩ := mapM_verb_eq_ok_iff.1 read
  obtain ⟨clause, listed, rfl⟩ := List.mem_map.1 mem
  exact ⟨clause, listed, each clause listed⟩

theorem columns_of_verbs : verbs.filterMap column? = clauses.filterMap output? ∧
    (∀ v ∈ verbs, v.isChained = false ∧ v ≠ .countDocuments) ∧ verbs.length = clauses.length := by
  obtain ⟨-, rfl⟩ := mapM_verb_eq_ok_iff.1 read
  refine ⟨?_, fun v mem => ?_, List.length_map _⟩
  · rw [List.filterMap_map]
    exact List.filterMap_congr fun clause _ => column?_toVerb clause
  · obtain ⟨clause, -, rfl⟩ := List.mem_map.1 mem
    exact ⟨isChained_toVerb clause, toVerb_ne_countDocuments clause⟩

/-- Every index of a query becomes one, and there are no others. -/
theorem countP_isIndex_of_verbs : verbs.countP Verb.isIndex = clauses.countP isIndex := by
  obtain ⟨-, rfl⟩ := mapM_verb_eq_ok_iff.1 read
  rw [List.countP_map]
  exact List.countP_congr fun clause _ => by simp

end Read

end Clause

namespace Query

/-- The outputs that a query names are pairwise distinct, and none has a reserved name. -/
structure OutputsApart (q : Query) : Prop where
  distinct : (q.clauses.filterMap Clause.output?).Nodup
  unreserved : ∀ name ∈ q.clauses.filterMap Clause.output?,
    name ≠ Field.count ∧ name ≠ Field.key ∧ name ≠ Field.intermediate

/-- An index names no output. -/
theorem OutputsApart.insert_index {q q' : Query} (outputs : q.OutputsApart) {front back : List Clause}
    {field : String} (split : q.clauses = front ++ back)
    (split' : q'.clauses = front ++ .indexedBy field :: back) : q'.OutputsApart := by
  have same : q'.clauses.filterMap Clause.output? = q.clauses.filterMap Clause.output? := by
    rw [split, split', List.filterMap_append, List.filterMap_append, List.filterMap_cons_none]
    rfl
  exact ⟨same ▸ outputs.distinct, same ▸ outputs.unreserved⟩

theorem exists_read_of_compile {q : Query} {p : Pipeline} (compiled : q.compile = .ok p) :
    ∃ verbs, q.clauses.mapM Clause.verb = .ok verbs ∧ p = .ofVerbs verbs := by
  cases read : q.clauses.mapM Clause.verb with
  | error e =>
    rw [compile, read] at compiled
    cases compiled
  | ok verbs =>
    rw [compile, read] at compiled
    exact ⟨verbs, rfl, (Except.ok.inj compiled).symm⟩

section Read

variable {q : Query} {verbs : List Verb} (read : q.clauses.mapM Clause.verb = .ok verbs)

include read

/-- The verbs of a query with such outputs have their columns apart. -/
theorem columnsApart_of_read (outputs : q.OutputsApart) : ColumnsApart verbs := by
  obtain ⟨columns, -, -⟩ := Clause.columns_of_verbs read
  exact ⟨columns ▸ outputs.distinct, columns ▸ outputs.unreserved⟩

/-- No list in memory is as long as `2 ^ 62`. -/
theorem plain_of_read (short : q.clauses.length < 2 ^ 62) : Plain (Pipeline.composition verbs) := by
  obtain ⟨-, plain, length⟩ := Clause.columns_of_verbs read
  constructor
  · intro v mem
    rcases List.mem_cons.1 mem with rfl | mem
    · rfl
    · exact (plain v (List.mem_of_mem_filter mem)).1
  · have kept := List.length_filter_le (· ≠ Verb.countDocuments) verbs
    change (_ :: _ : List Verb).length < _
    rw [List.length_cons]
    omega

/-- A query does not count events by itself, so the verbs of its clauses follow the count. -/
theorem composition_of_read : Pipeline.composition verbs = .countDocuments :: verbs := by
  obtain ⟨-, plain, -⟩ := Clause.columns_of_verbs read
  rw [Pipeline.composition, List.filter_eq_self.2]
  intro v mem
  simpa using (plain v mem).2

end Read

/-- A clause of a query becomes a verb in the same place. -/
theorem split_of_read {q : Query} {verbs : List Verb} (read : q.clauses.mapM Clause.verb = .ok verbs)
    {front back : List Clause} {clause : Clause} (split : q.clauses = front ++ clause :: back) :
    ∃ before v after, front.mapM Clause.verb = .ok before ∧ clause.verb = .ok v ∧
      back.mapM Clause.verb = .ok after ∧ verbs = before ++ v :: after := by
  obtain ⟨each, rfl⟩ := Clause.mapM_verb_eq_ok_iff.1 read
  rw [split] at each ⊢
  have own : clause ∈ front ++ clause :: back := List.mem_append_right _ List.mem_cons_self
  refine ⟨front.map Clause.toVerb, clause.toVerb, back.map Clause.toVerb, ?_, each clause own, ?_, by simp⟩
  · exact Clause.mapM_verb_eq_ok_iff.2 ⟨fun other mem => each other (List.mem_append_left _ mem), rfl⟩
  · refine Clause.mapM_verb_eq_ok_iff.2 ⟨fun other mem => each other ?_, rfl⟩
    exact List.mem_append_right _ (List.mem_cons_of_mem _ mem)

theorem exists_verb_of_mem {q : Query} {verbs : List Verb} (read : q.clauses.mapM Clause.verb = .ok verbs)
    {clause : Clause} (mem : clause ∈ q.clauses) : ∃ v ∈ verbs, clause.verb = .ok v := by
  obtain ⟨front, back, split⟩ := List.append_of_mem mem
  obtain ⟨before, v, after, -, own, -, rfl⟩ := split_of_read read split
  exact ⟨v, List.mem_append_right _ List.mem_cons_self, own⟩

theorem exists_verbs_of_compile {q : Query} {p : Pipeline} (compiled : q.compile = .ok p)
    (outputs : q.OutputsApart) (short : q.clauses.length < 2 ^ 62) :
    ∃ verbs, p = .ofVerbs verbs ∧ ColumnsApart verbs ∧ Plain (Pipeline.composition verbs) := by
  obtain ⟨verbs, read, same⟩ := exists_read_of_compile compiled
  exact ⟨verbs, same, columnsApart_of_read read outputs, plain_of_read read short⟩

end Query

end Rollup
