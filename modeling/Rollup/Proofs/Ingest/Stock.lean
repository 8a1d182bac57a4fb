import Rollup.Proofs.Ingest.Chain

/-!
# What a stage has in stock

A stage has buckets that it may store and entries that it can fold (`Stocked`), and all that it has
comes to its `bulk`.  Whichever groups are left out, working off the queues takes the stage through a
course within its bulk, and leaves no more than there was (`Stocked.course`).
-/

namespace Rollup.Ingest

open Document

/-! ## Volumes -/

section Volume

variable {verbs : List Verb} {stage : Stage} {b : Buckets} {groups : List Group}
  {entries : List (Key × Document)} {field : String}

theorem nodup_of_subperm (part : groups.Subperm (groupByKey entries)) : (groups.map Prod.fst).Nodup := by
  obtain ⟨groups', perm, sub⟩ := part
  exact (perm.map Prod.fst).nodup_iff.1 ((nodup_groupByKey entries).sublist (sub.map Prod.fst))

theorem docs_eq_of_subperm (part : groups.Subperm (groupByKey entries)) {group : Group} (mem : group ∈ groups) :
    group.2 = docsOf entries group.1 ∧ group.2 ≠ [] :=
  mem_groupByKey.1 (part.subset mem)

theorem reads_of_subperm (part : groups.Subperm (groupByKey entries))
    (reads : ∀ e ∈ entries, stage.Reads verbs e.1 e.2) :
    ∀ group ∈ groups, ∀ d ∈ group.2, stage.Reads verbs group.1 d := by
  intro group mem d member
  rw [(docs_eq_of_subperm part mem).1] at member
  exact reads _ (mem_docsOf.1 member)

/-- One phase moves an amount by what is queued under its key at most. -/
theorem natAbs_amount_afterPhase_le (phase : Phase) (counting : Counting stage.reduces)
    (part : groups.Subperm (groupByKey entries)) (reads : ∀ e ∈ entries, stage.Reads verbs e.1 e.2)
    (holds : ∀ key d, b.get? key = some d → stage.Holds verbs key d)
    (linear : Linear stage.reduces field)
    (small : volume b field + magnitude (entries.map Prod.snd) field < 2 ^ 53) (key : Key) :
    (amount (afterPhase stage phase b groups) field key).natAbs ≤
      (amount b field key).natAbs + magnitude (docsOf entries key) field := by
  by_cases mem : key ∈ groups.map Prod.fst
  · obtain ⟨⟨key, docs⟩, member, rfl⟩ := List.mem_map.1 mem
    obtain ⟨same, filled⟩ := docs_eq_of_subperm part member
    simp only at same filled ⊢
    subst same
    have kept := natAbs_amount_le b field key
    have queued := magnitude_docsOf_le entries field key
    have total := natAbs_wholeSum_le (docsOf entries key) field
    have nodup := nodup_of_subperm part
    have own := reads_of_subperm part reads _ member
    cases phase with
    | retract =>
      -- A bucket that is not stored is not opened by a retraction.
      by_cases stored : key ∈ domain b
      · rw [amount_retract counting nodup member own holds stored linear (by omega) (by omega) (by omega)]
        omega
      · rw [amount, get?_afterPhase_of_not_stored (get?_eq_none stored)]
        exact Nat.zero_le _
    | add =>
      rw [amount_add counting nodup member filled own holds linear (by omega) (by omega) (by omega)]
      omega
  · rw [amount_of_no_group mem]
    exact Nat.le_add_right _ _

theorem volume_afterPhase_le (phase : Phase) (counting : Counting stage.reduces)
    (part : groups.Subperm (groupByKey entries)) (reads : ∀ e ∈ entries, stage.Reads verbs e.1 e.2)
    (holds : ∀ key d, b.get? key = some d → stage.Holds verbs key d)
    (linear : Linear stage.reduces field)
    (small : volume b field + magnitude (entries.map Prod.snd) field < 2 ^ 53) :
    volume (afterPhase stage phase b groups) field ≤
      volume b field + magnitude (entries.map Prod.snd) field := by
  calc volume (afterPhase stage phase b groups) field
      ≤ ∑ key ∈ domain (afterPhase stage phase b groups),
          ((amount b field key).natAbs + magnitude (docsOf entries key) field) :=
        Finset.sum_le_sum fun key _ =>
          natAbs_amount_afterPhase_le phase counting part reads holds linear small key
    _ ≤ volume b field + magnitude (entries.map Prod.snd) field := by
        rw [Finset.sum_add_distrib]
        exact Nat.add_le_add (sum_natAbs_amount_le b field _) (sum_magnitude_docsOf_le entries field _)

theorem length_groupByKey_le (entries : List (Key × Document)) :
    (groupByKey entries).length ≤ entries.length := by
  have subset : (groupByKey entries).map Prod.fst ⊆ entries.map Prod.fst := by
    intro key mem
    obtain ⟨group, member, rfl⟩ := List.mem_map.1 mem
    obtain ⟨same, filled⟩ := mem_groupByKey.1 member
    obtain ⟨d, first⟩ := List.exists_mem_of_ne_nil _ filled
    exact List.mem_map.2 ⟨_, mem_docsOf.1 (same ▸ first), rfl⟩
  simpa using ((nodup_groupByKey entries).subperm subset).length_le

theorem card_domain_afterPhase_le (phase : Phase) (part : groups.Subperm (groupByKey entries)) :
    (domain (afterPhase stage phase b groups)).card ≤ (domain b).card + entries.length := by
  rw [(revised_afterPhase (nodup_of_subperm part) b).domain_eq]
  refine (Finset.card_union_le _ _).trans (Nat.add_le_add_left ?_ _)
  refine (List.toFinset_card_le _).trans ?_
  refine (keys_revisions_sublist stage phase b groups).length_le.trans ?_
  rw [List.length_map]
  exact part.length_le.trans (length_groupByKey_le entries)

end Volume

/-! ## Stock -/

/-- What a stage has stored and queued is of its kind. -/
structure Stocked (verbs : List Verb) (stage : Stage) (b : Buckets) (q : Queues) : Prop where
  counting : Counting stage.reduces
  holds : ∀ key d, b.get? key = some d → stage.Holds verbs key d
  reads : ∀ phase, ∀ e ∈ q.entries phase, stage.Reads verbs e.1 e.2

/-- What the buckets and the queued entries of a stage come to in a field, and how many buckets there
may be. -/
def bulk (b : Buckets) (q : Queues) (field : String) : Nat :=
  volume b field + (domain b).card + magnitude (q.retractions.map Prod.snd) field +
    (magnitude (q.additions.map Prod.snd) field + q.additions.length)

/-- A bound on the bulk of a stage in the fields that add up. -/
def Fits (bound : Nat) (stage : Stage) (b : Buckets) (q : Queues) : Prop :=
  ∀ field, Linear stage.reduces field → bulk b q field ≤ bound

theorem Fits.mono {bound bound' : Nat} {stage : Stage} {b : Buckets} {q : Queues} (fits : Fits bound stage b q)
    (le : bound ≤ bound') : Fits bound' stage b q :=
  fun field linear => (fits field linear).trans le

/-- What a cycle leaves in the queues was queued before. -/
theorem mem_entries_of_left {q q' : Queues} {p : Prop} (drained : q'.retractions = [])
    (left : q'.additions = [] ∨ p ∧ q'.additions = q.additions) {which : Phase} {e : Key × Document}
    (mem : e ∈ q'.entries which) : e ∈ q.entries which := by
  cases which with
  | retract =>
    rw [Queues.entries, drained] at mem
    cases mem
  | add =>
    rcases left with none | ⟨-, kept⟩
    · rw [Queues.entries, none] at mem
      cases mem
    · rw [Queues.entries, kept] at mem
      exact mem

namespace Stocked

variable {verbs : List Verb} {stage : Stage} {b : Buckets} {q : Queues} {bound : Nat} {field : String}

theorem phase (stocked : Stocked verbs stage b q) (which : Phase) {groups : List Group}
    (part : groups.Subperm (groupByKey (q.entries which))) :
    Stocked verbs stage (afterPhase stage which b groups) q where
  counting := stocked.counting
  holds := holds_afterPhase stocked.counting (nodup_of_subperm part)
    (reads_of_subperm part (stocked.reads which)) stocked.holds
  reads := stocked.reads

section Course

variable {first second : List Group} (stocked : Stocked verbs stage b q)
  (first_part : first.Subperm (groupByKey q.retractions)) (second_part : second.Subperm (groupByKey q.additions))

include stocked first_part second_part

theorem volume_le (linear : Linear stage.reduces field) (small : bulk b q field < 2 ^ 53) :
    volume (afterPhase stage .retract b first) field ≤ volume b field + magnitude (q.retractions.map Prod.snd) field ∧
      volume (afterPhase stage .add (afterPhase stage .retract b first) second) field ≤ volume b field +
        magnitude (q.retractions.map Prod.snd) field + magnitude (q.additions.map Prod.snd) field := by
  rw [bulk] at small
  have one := volume_afterPhase_le .retract stocked.counting first_part (stocked.reads .retract) stocked.holds
    linear (by omega)
  have two := volume_afterPhase_le .add stocked.counting second_part (stocked.reads .add)
    (stocked.phase .retract first_part).holds linear (by omega)
  exact ⟨one, two.trans (Nat.add_le_add_right one _)⟩

omit stocked in
/-- Only additions open buckets. -/
theorem card_domain_le :
    domain (afterPhase stage .retract b first) = domain b ∧
      (domain (afterPhase stage .add (afterPhase stage .retract b first) second)).card ≤
        (domain b).card + q.additions.length := by
  have kept : domain (afterPhase stage .retract b first) = domain b :=
    (revised_afterPhase (nodup_of_subperm first_part) b).domain_eq_of_stored fun r mem => stored_of_retract mem
  have grown := @card_domain_afterPhase_le stage (afterPhase stage .retract b first) second q.additions .add second_part
  exact ⟨kept, kept ▸ grown⟩

/-- Whichever groups are left out, both phases make a course within the bulk. -/
theorem course (fits : Fits bound stage b q) (small : bound < 2 ^ 53) :
    Course verbs stage bound b (revisions stage .retract b first) (afterPhase stage .retract b first)
      (revisions stage .add (afterPhase stage .retract b first) second)
      (afterPhase stage .add (afterPhase stage .retract b first) second) := by
  have volumes : ∀ field, Linear stage.reduces field → volume b field ≤ bound ∧
      volume (afterPhase stage .retract b first) field ≤ bound ∧
      volume (afterPhase stage .add (afterPhase stage .retract b first) second) field ≤ bound := by
    intro field linear
    have total := fits field linear
    obtain ⟨one, two⟩ := stocked.volume_le first_part second_part linear (total.trans_lt small)
    rw [bulk] at total
    omega
  have grown := (@card_domain_le stage b q first second first_part second_part).2
  have total := fits Field.count (.inl rfl)
  rw [bulk] at total
  exact {
    counting := stocked.counting
    retract := revised_afterPhase (nodup_of_subperm first_part) b
    add := revised_afterPhase (nodup_of_subperm second_part) _
    stored := fun r mem => stored_of_retract mem
    holds_before := stocked.holds
    holds_middle := (stocked.phase .retract first_part).holds
    holds_after := ((stocked.phase .retract first_part).phase .add second_part).holds
    volume_before := fun field linear => (volumes field linear).1
    volume_middle := fun field linear => (volumes field linear).2.1
    volume_after := fun field linear => (volumes field linear).2.2
    size := by omega }

/-- What is left to do is part of what there was to do. -/
theorem remainder {q' : Queues} (drained : q'.retractions = [])
    (left : q'.additions = [] ∨ second = [] ∧ q'.additions = q.additions) :
    Stocked verbs stage (afterPhase stage .add (afterPhase stage .retract b first) second) q' ∧
      ∀ field, Linear stage.reduces field → bulk b q field < 2 ^ 53 →
        bulk (afterPhase stage .add (afterPhase stage .retract b first) second) q' field ≤ bulk b q field := by
  have stocked' := (stocked.phase .retract first_part).phase .add second_part
  refine ⟨⟨stocked'.counting, stocked'.holds, fun which e mem =>
    stocked.reads which e (mem_entries_of_left drained left mem)⟩, fun field linear small => ?_⟩
  obtain ⟨middle, last⟩ := stocked.volume_le first_part second_part linear small
  obtain ⟨kept, grown⟩ := @card_domain_le stage b q first second first_part second_part
  have none : magnitude [] field = 0 := rfl
  rw [bulk, drained, bulk, List.map_nil, none]
  rcases left with drained' | ⟨rfl, same⟩
  · rw [drained', List.map_nil, none, List.length_nil]
    omega
  -- The first phase failed, so nothing was drained in the second.
  · have still : afterPhase stage .add (afterPhase stage .retract b first) [] =
        afterPhase stage .retract b first := rfl
    rw [still, same, kept]
    omega

end Course

section Amounts

variable {first second : List Group} {key : Key} (stocked : Stocked verbs stage b q)
  (linear : Linear stage.reduces field) (small : bulk b q field < 2 ^ 53)

include stocked linear small

theorem amount_retracted (whole : first.Perm (groupByKey q.retractions))
    (stored : docsOf q.retractions key ≠ [] → key ∈ domain b) :
    amount (afterPhase stage .retract b first) field key =
      amount b field key - wholeSum (docsOf q.retractions key) field := by
  rw [bulk] at small
  have kept := natAbs_amount_le b field key
  have queued := magnitude_docsOf_le q.retractions field key
  have total := natAbs_wholeSum_le (docsOf q.retractions key) field
  exact amount_retractAll whole stocked.counting (stocked.reads .retract) stocked.holds stored linear
    (by omega) (by omega) (by omega)

/-- A second phase that leaves nothing out adds what is queued, whatever the first left out. -/
theorem amount_added (first_part : first.Subperm (groupByKey q.retractions))
    (whole : second.Perm (groupByKey q.additions)) :
    amount (afterPhase stage .add (afterPhase stage .retract b first) second) field key =
      amount (afterPhase stage .retract b first) field key + wholeSum (docsOf q.additions key) field := by
  rw [bulk] at small
  have middle := natAbs_amount_afterPhase_le .retract stocked.counting first_part (stocked.reads .retract)
    stocked.holds linear (by omega) key
  have kept := natAbs_amount_le b field key
  have retracted := magnitude_docsOf_le q.retractions field key
  have queued := magnitude_docsOf_le q.additions field key
  have total := natAbs_wholeSum_le (docsOf q.additions key) field
  exact amount_addAll whole stocked.counting (stocked.reads .add) (stocked.phase .retract first_part).holds linear
    (by omega) (by omega) (by omega)

end Amounts

end Stocked

end Rollup.Ingest
