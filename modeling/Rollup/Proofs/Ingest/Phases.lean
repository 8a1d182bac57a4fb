import Rollup.Proofs.Ingest.Amounts

/-!
# What a phase does to amounts

Key by key, a retraction subtracts what is queued under the key and an addition adds it, provided no
total reaches `2 ^ 53`.  Groups that were left out leave their buckets as they were.
-/

namespace Rollup.Ingest

open Document

variable {verbs : List Verb} {stage : Stage} {phase : Phase} {b : Buckets} {groups : List Group}
  {entries : List (Key × Document)} {key : Key} {docs : List Document} {field : String}

/-- The buckets of a scope after the groups of a phase. -/
def afterPhase (stage : Stage) (phase : Phase) (b : Buckets) (groups : List Group) : Buckets :=
  applyAll (revisions stage phase b groups) b

theorem revised_afterPhase (nodup : (groups.map Prod.fst).Nodup) (b : Buckets) :
    Revised b (revisions stage phase b groups) (afterPhase stage phase b groups) :=
  revised_revisions nodup b

theorem get?_afterPhase_of_revise? (nodup : (groups.map Prod.fst).Nodup) (mem : (key, docs) ∈ groups)
    {r : Revision} (revised : revise? stage phase (key, docs) (b.get? key) = some r) :
    (afterPhase stage phase b groups).get? key = some r.new := by
  have same := (revise?_keeps revised).1
  simp only at same
  subst same
  exact (revised_afterPhase nodup b).get?_of_mem (mem_revisions.2 ⟨_, mem, rfl, revised⟩)

/-- The bucket of a group becomes what the group makes of it. -/
theorem get?_afterPhase_of_mem (nodup : (groups.map Prod.fst).Nodup) (mem : (key, docs) ∈ groups) :
    (afterPhase stage phase b groups).get? key =
      ((revise? stage phase (key, docs) (b.get? key)).map Revision.new).or (b.get? key) := by
  cases revised : revise? stage phase (key, docs) (b.get? key) with
  | some r => exact get?_afterPhase_of_revise? nodup mem revised
  | none =>
    refine get?_applyAll_of_not_mem (fun member => ?_) b
    obtain ⟨r, member, same⟩ := List.mem_map.1 member
    obtain ⟨group, other, own, made⟩ := mem_revisions.1 member
    rw [same] at own made
    obtain rfl : group = (key, docs) := List.inj_on_of_nodup_map nodup other mem own.symm
    rw [revised] at made
    cases made

theorem get?_afterPhase_of_not_mem (other : key ∉ groups.map Prod.fst) :
    (afterPhase stage phase b groups).get? key = b.get? key := by
  refine get?_applyAll_of_not_mem (fun mem => other ?_) b
  exact (keys_revisions_sublist stage phase b groups).subset mem

theorem get?_afterPhase_of_not_stored (missing : b.get? key = none) :
    (afterPhase stage .retract b groups).get? key = none := by
  rw [← missing]
  refine get?_applyAll_of_not_mem (fun mem => ?_) b
  obtain ⟨r, member, rfl⟩ := List.mem_map.1 mem
  obtain ⟨group, -, -, revised⟩ := mem_revisions.1 member
  rw [missing] at revised
  cases revised

/-- Buckets stay what the stage may store. -/
theorem holds_afterPhase (counting : Counting stage.reduces) (nodup : (groups.map Prod.fst).Nodup)
    (reads : ∀ group ∈ groups, ∀ d ∈ group.2, stage.Reads verbs group.1 d)
    (holds : ∀ key d, b.get? key = some d → stage.Holds verbs key d) :
    ∀ key d, (afterPhase stage phase b groups).get? key = some d → stage.Holds verbs key d := by
  refine (revised_afterPhase nodup b).forall_get? holds fun r mem => ?_
  obtain ⟨⟨key, docs⟩, member, same, revised⟩ := mem_revisions.1 mem
  simp only at same
  subst same
  exact holds_revise? counting (reads _ member) (fun stored found => holds _ stored found) revised

theorem amount_retract (counting : Counting stage.reduces) (nodup : (groups.map Prod.fst).Nodup)
    (mem : (key, docs) ∈ groups) (reads : ∀ d ∈ docs, stage.Reads verbs key d)
    (holds : ∀ key d, b.get? key = some d → stage.Holds verbs key d)
    (stored : key ∈ domain b) (linear : Linear stage.reduces field)
    (kept : (amount b field key).natAbs < 2 ^ 53) (small : magnitude docs field < 2 ^ 53)
    (left : (amount b field key - wholeSum docs field).natAbs < 2 ^ 53) :
    amount (afterPhase stage .retract b groups) field key = amount b field key - wholeSum docs field := by
  obtain ⟨d, found⟩ := mem_domain.1 stored
  have revised : revise? stage .retract (key, docs) (b.get? key) =
      some ⟨key, some d, stage.unreduce d docs, .unreduced⟩ := by rw [found]; rfl
  rw [amount_of_get? (get?_afterPhase_of_revise? nodup mem revised)]
  rw [found] at revised
  rw [amount_of_get? found] at kept left ⊢
  exact whole_revise?_retract counting reads (holds key d found) linear kept small left revised

theorem amount_add (counting : Counting stage.reduces) (nodup : (groups.map Prod.fst).Nodup)
    (mem : (key, docs) ∈ groups) (filled : docs ≠ []) (reads : ∀ d ∈ docs, stage.Reads verbs key d)
    (holds : ∀ key d, b.get? key = some d → stage.Holds verbs key d)
    (linear : Linear stage.reduces field) (kept : (amount b field key).natAbs < 2 ^ 53)
    (small : magnitude docs field < 2 ^ 53)
    (total : (amount b field key + wholeSum docs field).natAbs < 2 ^ 53) :
    amount (afterPhase stage .add b groups) field key = amount b field key + wholeSum docs field := by
  obtain ⟨r, revised⟩ := revise?_add_isSome stage key filled (b.get? key)
  rw [amount_of_get? (get?_afterPhase_of_revise? nodup mem revised)]
  exact whole_revise?_add counting reads (fun stored found => holds key stored found) linear kept small
    total revised

theorem amount_of_no_group (other : key ∉ groups.map Prod.fst) (field : String) :
    amount (afterPhase stage phase b groups) field key = amount b field key := by
  rw [amount, amount, get?_afterPhase_of_not_mem other]

/-! ## All groups of a queue -/

section Whole

variable (whole : groups.Perm (groupByKey entries))

include whole

theorem nodup_of_perm : (groups.map Prod.fst).Nodup :=
  (whole.map Prod.fst).nodup_iff.2 (nodup_groupByKey entries)

theorem group_mem (filled : docsOf entries key ≠ []) : (key, docsOf entries key) ∈ groups :=
  whole.mem_iff.2 (mem_groupByKey.2 ⟨rfl, filled⟩)

theorem no_group (none : docsOf entries key = []) : key ∉ groups.map Prod.fst := by
  intro mem
  obtain ⟨group, member, rfl⟩ := List.mem_map.1 mem
  obtain ⟨same, filled⟩ := mem_groupByKey.1 (whole.mem_iff.1 member)
  exact filled (same.trans none)

theorem reads_of_perm (reads : ∀ e ∈ entries, stage.Reads verbs e.1 e.2) :
    ∀ group ∈ groups, ∀ d ∈ group.2, stage.Reads verbs group.1 d := by
  intro group mem d member
  rw [(mem_groupByKey.1 (whole.mem_iff.1 mem)).1] at member
  exact reads _ (mem_docsOf.1 member)

/-- A whole retraction phase subtracts what is queued. -/
theorem amount_retractAll (counting : Counting stage.reduces)
    (reads : ∀ e ∈ entries, stage.Reads verbs e.1 e.2)
    (holds : ∀ key d, b.get? key = some d → stage.Holds verbs key d)
    (stored : docsOf entries key ≠ [] → key ∈ domain b) (linear : Linear stage.reduces field)
    (kept : (amount b field key).natAbs < 2 ^ 53)
    (small : magnitude (docsOf entries key) field < 2 ^ 53)
    (left : (amount b field key - wholeSum (docsOf entries key) field).natAbs < 2 ^ 53) :
    amount (afterPhase stage .retract b groups) field key =
      amount b field key - wholeSum (docsOf entries key) field := by
  by_cases none : docsOf entries key = []
  · rw [amount_of_no_group (no_group whole none), none]
    exact (Int.sub_zero _).symm
  · exact amount_retract counting (nodup_of_perm whole) (group_mem whole none)
      (fun d mem => reads _ (mem_docsOf.1 mem)) holds (stored none) linear kept small left

/-- A whole addition phase adds what is queued. -/
theorem amount_addAll (counting : Counting stage.reduces)
    (reads : ∀ e ∈ entries, stage.Reads verbs e.1 e.2)
    (holds : ∀ key d, b.get? key = some d → stage.Holds verbs key d)
    (linear : Linear stage.reduces field) (kept : (amount b field key).natAbs < 2 ^ 53)
    (small : magnitude (docsOf entries key) field < 2 ^ 53)
    (total : (amount b field key + wholeSum (docsOf entries key) field).natAbs < 2 ^ 53) :
    amount (afterPhase stage .add b groups) field key =
      amount b field key + wholeSum (docsOf entries key) field := by
  by_cases none : docsOf entries key = []
  · rw [amount_of_no_group (no_group whole none), none]
    exact (Int.add_zero _).symm
  · exact amount_add counting (nodup_of_perm whole) (group_mem whole none) none
      (fun d mem => reads _ (mem_docsOf.1 mem)) holds linear kept small total

theorem mem_domain_addAll :
    key ∈ domain (afterPhase stage .add b groups) ↔ key ∈ domain b ∨ docsOf entries key ≠ [] := by
  by_cases none : docsOf entries key = []
  · rw [mem_domain, mem_domain, get?_afterPhase_of_not_mem (no_group whole none)]
    exact ⟨.inl, fun found => found.resolve_right (not_not_intro none)⟩
  · obtain ⟨r, revised⟩ := revise?_add_isSome stage key none (b.get? key)
    have found := get?_afterPhase_of_revise? (nodup_of_perm whole) (group_mem whole none) revised
    exact ⟨fun _ => .inr none, fun _ => mem_domain.2 ⟨_, found⟩⟩

end Whole

theorem stored_of_retract {r : Revision} (mem : r ∈ revisions stage .retract b groups) : r.old.isSome := by
  obtain ⟨⟨key, docs⟩, -, same, revised⟩ := mem_revisions.1 mem
  have kept := (revise?_keeps revised).2
  cases found : b.get? r.key with
  | none =>
    rw [found] at revised
    cases revised
  | some d => rw [kept, found]; rfl

end Rollup.Ingest
