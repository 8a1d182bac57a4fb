import Rollup.Proofs.Ingest.Groups
import Rollup.Proofs.Stage.Routing

/-!
# Revisions of buckets

`revise?` is what a phase makes of one bucket, as a function of the documents queued under its key
and the document stored there.  A phase revises buckets under different keys, so what it makes of a
scope (`applyAll`) can be read off key by key.
-/

namespace Rollup.Ingest

open Document

/-- The buckets of a scope. -/
abbrev Buckets := SortedMap Key Document

/-! ## One bucket -/

/-- What a phase makes of the bucket of a group, given what is stored. -/
def revise? (stage : Stage) : Phase → Group → Option Document → Option Revision
  | .retract, _, none => none
  | .retract, (key, docs), some stored =>
    some ⟨key, some stored, stage.unreduce stored docs, .unreduced⟩
  | .add, (key, docs), none =>
    (stage.reduce? docs).map fun candidate => ⟨key, none, candidate, .inserted⟩
  | .add, (key, docs), some stored =>
    (stage.reduce? docs).bind fun candidate =>
      (stage.rereduce? [stored, candidate]).map fun merged => ⟨key, some stored, merged, .merged⟩

section Revise

variable {stage : Stage} {phase : Phase} {group : Group} {old : Option Document} {r : Revision}

/-- A revision is about the group and tells what was stored. -/
theorem revise?_keeps (revised : revise? stage phase group old = some r) : r.key = group.1 ∧ r.old = old := by
  obtain ⟨key, docs⟩ := group
  cases phase with
  | retract =>
    cases old with
    | none => cases revised
    | some stored => cases revised; exact ⟨rfl, rfl⟩
  | add =>
    cases old with
    | none =>
      obtain ⟨candidate, -, rfl⟩ := Option.map_eq_some_iff.1 revised
      exact ⟨rfl, rfl⟩
    | some stored =>
      obtain ⟨candidate, -, revised⟩ := Option.bind_eq_some_iff.1 revised
      obtain ⟨merged, -, rfl⟩ := Option.map_eq_some_iff.1 revised
      exact ⟨rfl, rfl⟩

/-- Documents are always added. -/
theorem revise?_add_isSome (stage : Stage) (key : Key) {docs : List Document} (filled : docs ≠ [])
    (old : Option Document) :
    ∃ r, revise? stage .add (key, docs) old = some r := by
  obtain ⟨candidate, folded⟩ := reduce?_isSome stage filled
  cases old with
  | none => exact ⟨_, by rw [revise?, folded]; rfl⟩
  | some stored =>
    obtain ⟨merged, again⟩ := reduce?_isSome stage (List.cons_ne_nil stored [candidate])
    exact ⟨_, by rw [revise?, folded, Option.bind_some, Stage.rereduce?, again]; rfl⟩

variable {verbs : List Verb} {key : Key} {docs : List Document}

/-- What is stored and what is folded can be folded together. -/
theorem reads_pair {stored candidate : Document} (counting : Counting stage.reduces)
    (reads : ∀ d ∈ docs, stage.Reads verbs key d) (holds : stage.Holds verbs key stored)
    (folded : stage.reduce? docs = some candidate) : ∀ d ∈ [stored, candidate], stage.Reads verbs key d := by
  intro d mem
  rcases List.mem_cons.1 mem with rfl | mem
  · exact holds.toReadable
  · rcases List.mem_singleton.1 mem with rfl
    exact (Aggregate.of_reduce? counting reads folded).toReadable

/-- A revised bucket is again one that the stage may store. -/
theorem holds_revise? (counting : Counting stage.reduces) (reads : ∀ d ∈ docs, stage.Reads verbs key d)
    (holds : ∀ stored, old = some stored → stage.Holds verbs key stored)
    (revised : revise? stage phase (key, docs) old = some r) : stage.Holds verbs key r.new := by
  cases phase with
  | retract =>
    cases old with
    | none => cases revised
    | some stored =>
      cases revised
      exact (holds stored rfl).unreduce counting docs
  | add =>
    cases old with
    | none =>
      obtain ⟨candidate, folded, rfl⟩ := Option.map_eq_some_iff.1 revised
      exact Aggregate.of_reduce? counting reads folded
    | some stored =>
      obtain ⟨candidate, folded, revised⟩ := Option.bind_eq_some_iff.1 revised
      obtain ⟨merged, again, rfl⟩ := Option.map_eq_some_iff.1 revised
      exact Aggregate.of_reduce? counting (reads_pair counting reads (holds stored rfl) folded) again

variable {field : String}

theorem whole_revise?_retract {stored : Document} (counting : Counting stage.reduces)
    (reads : ∀ d ∈ docs, stage.Reads verbs key d) (holds : stage.Holds verbs key stored)
    (linear : Linear stage.reduces field) (kept : (whole stored field).natAbs < 2 ^ 53)
    (small : magnitude docs field < 2 ^ 53)
    (left : (whole stored field - wholeSum docs field).natAbs < 2 ^ 53)
    (revised : revise? stage .retract (key, docs) (some stored) = some r) :
    whole r.new field = whole stored field - wholeSum docs field := by
  cases revised
  exact whole_unreduce counting holds reads linear kept (.of_magnitude (by simpa using small)) left

theorem whole_revise?_add (counting : Counting stage.reduces)
    (reads : ∀ d ∈ docs, stage.Reads verbs key d)
    (holds : ∀ stored, old = some stored → stage.Holds verbs key stored)
    (linear : Linear stage.reduces field)
    (kept : (old.elim 0 (whole · field)).natAbs < 2 ^ 53) (small : magnitude docs field < 2 ^ 53)
    (total : (old.elim 0 (whole · field) + wholeSum docs field).natAbs < 2 ^ 53)
    (revised : revise? stage .add (key, docs) old = some r) :
    whole r.new field = old.elim 0 (whole · field) + wholeSum docs field := by
  have within : Within field 0 docs := .of_magnitude (by simpa using small)
  cases old with
  | none =>
    obtain ⟨candidate, folded, rfl⟩ := Option.map_eq_some_iff.1 revised
    exact (whole_reduce? counting reads folded linear within).trans (Int.zero_add _).symm
  | some stored =>
    obtain ⟨candidate, folded, revised⟩ := Option.bind_eq_some_iff.1 revised
    obtain ⟨merged, again, rfl⟩ := Option.map_eq_some_iff.1 revised
    have counted := whole_reduce? counting reads folded linear within
    have readable := reads_pair counting reads (holds stored rfl) folded
    have summed := natAbs_wholeSum_le docs field
    simp only [Option.elim_some] at kept total ⊢
    rw [← counted] at total ⊢
    rw [whole_reduce? counting readable again linear (Within.pair kept (by omega) total), wholeSum]
    simp

end Revise

/-! ## Many buckets -/

/-- What a phase makes of the buckets of groups. -/
def revisions (stage : Stage) (phase : Phase) (b : Buckets) (groups : List Group) : List Revision :=
  groups.filterMap fun group => revise? stage phase group (b.get? group.1)

/-- Buckets after revisions. -/
def applyAll (rs : List Revision) (b : Buckets) : Buckets := rs.foldl (fun b r => b.insert r.key r.new) b

/-- Buckets under different keys were revised. -/
structure Revised (b : Buckets) (rs : List Revision) (b' : Buckets) : Prop where
  nodup : (rs.map Revision.key).Nodup
  old : ∀ r ∈ rs, r.old = b.get? r.key
  result : b' = applyAll rs b

theorem mem_revisions {stage : Stage} {phase : Phase} {b : Buckets} {groups : List Group} {r : Revision} :
    r ∈ revisions stage phase b groups ↔
      ∃ group ∈ groups, r.key = group.1 ∧ revise? stage phase group (b.get? r.key) = some r := by
  rw [revisions, List.mem_filterMap]
  constructor
  · rintro ⟨group, mem, revised⟩
    have same := (revise?_keeps revised).1
    exact ⟨group, mem, same, same ▸ revised⟩
  · rintro ⟨group, mem, same, revised⟩
    exact ⟨group, mem, same ▸ revised⟩

theorem keys_revisions_sublist (stage : Stage) (phase : Phase) (b : Buckets) (groups : List Group) :
    ((revisions stage phase b groups).map Revision.key).Sublist (groups.map Prod.fst) := by
  induction groups with
  | nil => exact List.Sublist.refl _
  | cons group rest ih =>
    rw [revisions, List.filterMap_cons]
    split
    · exact ih.cons _
    · next r revised =>
      rw [List.map_cons, (revise?_keeps revised).1]
      exact ih.cons_cons _

theorem revised_revisions {stage : Stage} {phase : Phase} {groups : List Group}
    (nodup : (groups.map Prod.fst).Nodup) (b : Buckets) :
    Revised b (revisions stage phase b groups) (applyAll (revisions stage phase b groups) b) where
  nodup := nodup.sublist (keys_revisions_sublist stage phase b groups)
  old r mem := by
    obtain ⟨group, -, -, revised⟩ := mem_revisions.1 mem
    exact (revise?_keeps revised).2
  result := rfl

section ApplyAll

theorem get?_applyAll_of_not_mem {rs : List Revision} {key : Key} (other : key ∉ rs.map Revision.key)
    (b : Buckets) : (applyAll rs b).get? key = b.get? key := by
  induction rs generalizing b with
  | nil => rfl
  | cons r rest ih =>
    rw [List.map_cons, List.mem_cons, not_or] at other
    rw [applyAll, List.foldl_cons, ← applyAll, ih other.2, SortedMap.get?_insert, if_neg other.1]

theorem get?_applyAll_of_mem {rs : List Revision} (nodup : (rs.map Revision.key).Nodup) {r : Revision}
    (mem : r ∈ rs) (b : Buckets) : (applyAll rs b).get? r.key = some r.new := by
  induction rs generalizing b with
  | nil => cases mem
  | cons first rest ih =>
    obtain ⟨fresh, nodup⟩ := List.nodup_cons.1 nodup
    rw [applyAll, List.foldl_cons, ← applyAll]
    rcases List.mem_cons.1 mem with rfl | mem
    · rw [get?_applyAll_of_not_mem fresh, SortedMap.get?_insert, if_pos rfl]
    · exact ih nodup mem _

theorem sorted_applyAll {b : Buckets} (sorted : b.Sorted) (rs : List Revision) : (applyAll rs b).Sorted := by
  induction rs generalizing b with
  | nil => exact sorted
  | cons r rest ih => exact ih (sorted.insert _ _)

end ApplyAll

namespace Revised

variable {b b' : Buckets} {rs : List Revision} (revised : Revised b rs b')

include revised

theorem get?_of_mem {r : Revision} (mem : r ∈ rs) : b'.get? r.key = some r.new := by
  rw [revised.result]
  exact get?_applyAll_of_mem revised.nodup mem b

theorem get?_of_not_mem {key : Key} (other : key ∉ rs.map Revision.key) : b'.get? key = b.get? key := by
  rw [revised.result]
  exact get?_applyAll_of_not_mem other b

/-- A property of documents that revisions establish holds of all buckets if it held before. -/
theorem forall_get? {p : Key → Document → Prop} (before : ∀ key d, b.get? key = some d → p key d)
    (news : ∀ r ∈ rs, p r.key r.new) : ∀ key d, b'.get? key = some d → p key d := by
  intro key d found
  by_cases mem : key ∈ rs.map Revision.key
  · obtain ⟨r, member, rfl⟩ := List.mem_map.1 mem
    rw [revised.get?_of_mem member] at found
    cases found
    exact news r member
  · rw [revised.get?_of_not_mem mem] at found
    exact before key d found

end Revised

end Rollup.Ingest
