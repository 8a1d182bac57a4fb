import Rollup.Proofs.Concurrent.Threads

/-!
# Counts that stop

A count stops at the end of its range.  Adding up entries that count once each, the root counts
exactly the entries that were applied, up to that end (`CountAt`), however they were batched.
-/

namespace Rollup

open Document

namespace Count

theorem toInt_add_of_nonneg {a b : Int64} (nonneg : 0 ≤ a.toInt + b.toInt) :
    (add a b).toInt = min (a.toInt + b.toInt) Int64.maxValue.toInt := by
  have least : Int64.minValue.toInt = -2 ^ 63 := rfl
  have greatest : Int64.maxValue.toInt = 2 ^ 63 - 1 := rfl
  rw [add, Binary64.clampInt64, if_neg (by omega)]
  split
  · omega
  · rw [Int64.toInt_ofInt_of_le (by omega) (by omega)]
    omega

theorem wholeSum_nonneg {docs : List Document} (counted : ∀ d ∈ docs, ∃ n, HasInt d Field.count n ∧ 0 ≤ n) :
    0 ≤ wholeSum docs Field.count := by
  refine List.sum_nonneg fun n mem => ?_
  obtain ⟨d, member, rfl⟩ := List.mem_map.1 mem
  obtain ⟨n, ⟨m, found, rfl⟩, nonneg⟩ := counted d member
  rw [whole_of_int found]
  exact nonneg

theorem toInt_foldl_of_nonneg {docs : List Document}
    (counted : ∀ d ∈ docs, ∃ n, HasInt d Field.count n ∧ 0 ≤ n) {start : Int64} (nonneg : 0 ≤ start.toInt) :
    (docs.foldl (fun n d => add n (contribution d)) start).toInt =
      min (start.toInt + wholeSum docs Field.count) Int64.maxValue.toInt := by
  have greatest : Int64.maxValue.toInt = 2 ^ 63 - 1 := rfl
  induction docs generalizing start with
  | nil =>
    have most := start.toInt_le
    rw [List.foldl_nil, wholeSum, List.map_nil, List.sum_nil]
    omega
  | cons d rest ih =>
    have later : ∀ e ∈ rest, ∃ n, HasInt e Field.count n ∧ 0 ≤ n :=
      fun e mem => counted e (List.mem_cons_of_mem _ mem)
    have rested := wholeSum_nonneg later
    obtain ⟨n, ⟨m, found, rfl⟩, positive⟩ := counted d List.mem_cons_self
    have own := contribution_eq ⟨m, found⟩
    rw [whole_of_int found] at own
    have next := toInt_add_of_nonneg (a := start) (b := contribution d) (by omega)
    have sum : wholeSum (d :: rest) Field.count = m.toInt + wholeSum rest Field.count := by
      rw [wholeSum, List.map_cons, List.sum_cons, whole_of_int found]
      rfl
    rw [List.foldl_cons, ih later (by omega), next, own, sum]
    omega

/-- A total of counts stops at the end of the range. -/
theorem toInt_total_of_nonneg {docs : List Document}
    (counted : ∀ d ∈ docs, ∃ n, HasInt d Field.count n ∧ 0 ≤ n) :
    (total docs).toInt = min (wholeSum docs Field.count) Int64.maxValue.toInt := by
  rw [total, toInt_foldl_of_nonneg counted (le_refl _)]
  exact congrArg (min · _) (Int.zero_add _)

end Count

namespace Ingest

/-- A bucket counts so many entries; there is none for no entries. -/
def CountAt (d? : Option Document) (n : Nat) : Prop :=
  d?.elim (n = 0) fun d => HasInt d Field.count (min n Int64.maxValue.toInt)

/-- The count in a bucket, zero where there is none. -/
theorem CountAt.whole {d? : Option Document} {n : Nat} (counted : CountAt d? n) :
    d?.elim 0 (Document.whole · Field.count) = min (n : Int) Int64.maxValue.toInt := by
  cases d? with
  | none =>
    obtain rfl : n = 0 := counted
    rfl
  | some d =>
    obtain ⟨m, found, value⟩ := counted
    rw [Option.elim_some, whole_of_int found, value]

section Phase

variable {stage : Stage} {b : Buckets} {entries : List (Key × Document)} {docs : List Document} {key : Key}
  {n : Nat}

theorem hasInt_reduce? (counting : Counting stage.reduces)
    (counted : ∀ d ∈ docs, ∃ n, HasInt d Field.count n ∧ 0 ≤ n) {out : Document}
    (folded : stage.reduce? docs = some out) :
    HasInt out Field.count (min (wholeSum docs Field.count) Int64.maxValue.toInt) := by
  obtain ⟨-, rfl⟩ := reduce?_eq folded
  refine ⟨Count.total docs, ?_, Count.toInt_total_of_nonneg counted⟩
  exact (counting.get?_count (Verb.reduce_confined docs) .empty).trans (get?_insert_self _ _ _)

/-- Adding documents that count once each adds their number. -/
theorem CountAt.revise? (counting : Counting stage.reduces) (ones : ∀ d ∈ docs, HasInt d Field.count 1)
    {old : Option Document} (counted : CountAt old n) {r : Revision}
    (revised : revise? stage .add (key, docs) old = some r) : CountAt (some r.new) (n + docs.length) := by
  have greatest : Int64.maxValue.toInt = 2 ^ 63 - 1 := rfl
  have sum : wholeSum docs Field.count = docs.length := by
    refine wholeSum_of_ones fun d mem => ?_
    obtain ⟨m, found, one⟩ := ones d mem
    rw [whole_of_int found, one]
  have candidates : ∀ out, stage.reduce? docs = some out →
      HasInt out Field.count (min (docs.length : Int) Int64.maxValue.toInt) := by
    intro out folded
    have own := hasInt_reduce? counting (fun d mem => ⟨1, ones d mem, by decide⟩) folded
    rwa [sum] at own
  cases old with
  | none =>
    obtain rfl : n = 0 := counted
    obtain ⟨candidate, folded, rfl⟩ := Option.map_eq_some_iff.1 revised
    rw [Nat.zero_add]
    exact candidates candidate folded
  | some stored =>
    obtain ⟨candidate, folded, revised⟩ := Option.bind_eq_some_iff.1 revised
    obtain ⟨merged, again, rfl⟩ := Option.map_eq_some_iff.1 revised
    have kept : HasInt stored Field.count (min n Int64.maxValue.toInt) := counted
    have more := candidates candidate folded
    have both : ∀ d ∈ [stored, candidate], ∃ n, HasInt d Field.count n ∧ 0 ≤ n := by
      intro d mem
      rcases List.mem_cons.1 mem with rfl | mem
      · exact ⟨_, kept, by omega⟩
      · rcases List.mem_singleton.1 mem with rfl
        exact ⟨_, more, by omega⟩
    -- Capping both parts before adding them caps the sum no earlier.
    have total : wholeSum [stored, candidate] Field.count =
        min (n : Int) Int64.maxValue.toInt + min (docs.length : Int) Int64.maxValue.toInt := by
      obtain ⟨m, found, value⟩ := kept
      obtain ⟨m', found', value'⟩ := more
      rw [wholeSum, List.map_cons, List.map_cons, List.map_nil, List.sum_cons, List.sum_cons, List.sum_nil,
        whole_of_int found, whole_of_int found', value, value', Int.add_zero]
    obtain ⟨m, found, value⟩ := hasInt_reduce? counting both again
    refine ⟨m, found, ?_⟩
    rw [value, total]
    push_cast
    omega

theorem CountAt.afterPhase (counting : Counting stage.reduces) (ones : ∀ e ∈ entries, HasInt e.2 Field.count 1)
    (counted : CountAt (b.get? key) n) :
    CountAt ((afterPhase stage .add b (groupByKey entries)).get? key) (n + (docsOf entries key).length) := by
  by_cases none : docsOf entries key = []
  · rw [get?_afterPhase_of_not_mem (no_group (List.Perm.refl _) none), none]
    exact counted
  · obtain ⟨r, revised⟩ := revise?_add_isSome stage key none (b.get? key)
    rw [get?_afterPhase_of_revise? (nodup_groupByKey entries) (group_mem (List.Perm.refl _) none) revised]
    exact counted.revise? counting (fun d mem => ones _ (mem_docsOf.1 mem)) revised

/-- Batches without retractions count what they add. -/
theorem CountAt.foldl_replay (counting : Counting stage.reduces) {batches : List Queues}
    (unretracted : ∀ batch ∈ batches, batch.retractions = [])
    (ones : ∀ batch ∈ batches, ∀ e ∈ batch.additions, HasInt e.2 Field.count 1)
    (counted : CountAt (b.get? key) n) :
    CountAt ((batches.foldl (replay stage) b).get? key)
      (n + (docsOf (batches.flatMap Queues.additions) key).length) := by
  induction batches generalizing b n with
  | nil => exact counted
  | cons batch rest ih =>
    have kept : retracted stage b batch = b := by
      rw [retracted, unretracted batch List.mem_cons_self]
      rfl
    have first : CountAt ((replay stage b batch).get? key) (n + (docsOf batch.additions key).length) := by
      rw [replay, kept]
      exact counted.afterPhase counting (ones batch List.mem_cons_self)
    have later := ih (fun other mem => unretracted other (List.mem_cons_of_mem _ mem))
      (fun other mem => ones other (List.mem_cons_of_mem _ mem)) first
    rw [List.flatMap_cons, docsOf_append, List.length_append, ← Nat.add_assoc]
    exact later

end Phase

end Ingest

end Rollup
