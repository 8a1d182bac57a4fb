import Rollup.Proofs.Ingest.Stock

/-!
# Courses of the root

The root folds mapped events, each of which counts once, so what a commit may do to its volumes is
bounded by the number of queued entries (`load`).  Whichever keys fail, the root goes through a
course within that bound (`Grounded.course`).
-/

namespace Rollup.Ingest

open Document

/-- A queued event. -/
structure Queued (verbs : List Verb) (stage : Stage) (e : Key × Document) : Prop where
  reads : stage.Reads verbs e.1 e.2
  fresh : Fresh stage.reduces e.2

/-- What the root accounts for: the counts of its buckets and their number, with what queued entries
may add to either. -/
def load (b : Buckets) (q : Queues) : Nat :=
  volume b Field.count + (domain b).card + (2 * q.additions.length + q.retractions.length)

theorem magnitude_fresh_count {verbs : List Verb} {stage : Stage} {entries : List (Key × Document)}
    (queued : ∀ e ∈ entries, Queued verbs stage e) :
    magnitude (entries.map Prod.snd) Field.count = entries.length := by
  induction entries with
  | nil => rfl
  | cons e rest ih =>
    have one := whole_of_int (queued e List.mem_cons_self).fresh.count
    have later := ih fun e mem => queued e (List.mem_cons_of_mem _ mem)
    simp only [magnitude, List.map_cons, List.sum_cons, one] at later ⊢
    rw [later, List.length_cons, Nat.add_comm]
    rfl

theorem magnitude_fresh_tally {verbs : List Verb} {stage : Stage} {entries : List (Key × Document)}
    (queued : ∀ e ∈ entries, Queued verbs stage e) {name : String}
    (mem : .uniqueTally name ∈ stage.reduces) : magnitude (entries.map Prod.snd) name = 0 := by
  induction entries with
  | nil => rfl
  | cons e rest ih =>
    have none := whole_of_none ((queued e List.mem_cons_self).fresh.tally name mem)
    have later := ih fun e mem => queued e (List.mem_cons_of_mem _ mem)
    simp only [magnitude, List.map_cons, List.sum_cons, none] at later ⊢
    rw [later]
    rfl

/-- What holds of the root between calls. -/
structure Grounded (verbs : List Verb) (stage : Stage) (b : Buckets) (q : Queues) : Prop where
  counting : Counting stage.reduces
  holds : ∀ key d, b.get? key = some d → stage.Holds verbs key d
  untallied : ∀ name, .uniqueTally name ∈ stage.reduces → volume b name = 0
  queued : ∀ phase, ∀ e ∈ q.entries phase, Queued verbs stage e

/-- At the root the bulk of the count is what the root accounts for. -/
theorem bulk_count {verbs : List Verb} {stage : Stage} {q : Queues}
    (queued : ∀ phase, ∀ e ∈ q.entries phase, Queued verbs stage e) (b : Buckets) :
    bulk b q Field.count = load b q := by
  have retracted : magnitude (q.retractions.map Prod.snd) Field.count = q.retractions.length :=
    magnitude_fresh_count (queued .retract)
  have added : magnitude (q.additions.map Prod.snd) Field.count = q.additions.length :=
    magnitude_fresh_count (queued .add)
  rw [bulk, load, retracted, added]
  omega

/-- How many entries a cycle retracts from a bucket: those for a bucket that is not stored are skipped. -/
def taken (b : Buckets) (q : Queues) (key : Key) : Nat :=
  if key ∈ domain b then (docsOf q.retractions key).length else 0

/-- Where only stored buckets are retracted from, none is skipped. -/
theorem taken_of_stored {b : Buckets} {q : Queues} (stored : ∀ e ∈ q.retractions, e.1 ∈ domain b) (key : Key) :
    taken b q key = (docsOf q.retractions key).length := by
  rw [taken]
  split
  · rfl
  · next missing =>
    have none : docsOf q.retractions key = [] := by
      apply List.eq_nil_iff_forall_not_mem.2
      intro d mem
      exact missing (stored _ (mem_docsOf.1 mem))
    rw [none]
    rfl

theorem taken_empty (b : Buckets) (key : Key) : taken b {} key = 0 :=
  taken_of_stored (fun _ mem => absurd mem List.not_mem_nil) key

namespace Grounded

variable {verbs : List Verb} {stage : Stage} {b : Buckets} {q : Queues}

theorem stocked (grounded : Grounded verbs stage b q) : Stocked verbs stage b q :=
  ⟨grounded.counting, grounded.holds, fun phase e mem => (grounded.queued phase e mem).reads⟩

/-- Fields other than the count are empty at the root. -/
theorem fits (grounded : Grounded verbs stage b q) : Fits (load b q) stage b q := by
  rintro field (rfl | mem)
  · exact (bulk_count grounded.queued b).le
  · have retracted : magnitude (q.retractions.map Prod.snd) field = 0 :=
      magnitude_fresh_tally (grounded.queued .retract) mem
    have added : magnitude (q.additions.map Prod.snd) field = 0 :=
      magnitude_fresh_tally (grounded.queued .add) mem
    rw [bulk, grounded.untallied field mem, retracted, added, load]
    omega

/-- A phase of the root adds what is queued to its volumes at most. -/
theorem phase (grounded : Grounded verbs stage b q) (phase : Phase) {groups : List Group}
    (part : groups.Subperm (groupByKey (q.entries phase)))
    (small : volume b Field.count + (q.entries phase).length < 2 ^ 53) :
    Grounded verbs stage (afterPhase stage phase b groups) q ∧
      volume (afterPhase stage phase b groups) Field.count ≤ volume b Field.count + (q.entries phase).length := by
  have reads : ∀ e ∈ q.entries phase, stage.Reads verbs e.1 e.2 :=
    fun e mem => (grounded.queued phase e mem).reads
  have count := magnitude_fresh_count (grounded.queued phase)
  refine ⟨⟨grounded.counting, ?_, fun name mem => ?_, grounded.queued⟩, ?_⟩
  · exact holds_afterPhase grounded.counting (nodup_of_subperm part) (reads_of_subperm part reads) grounded.holds
  · have zero := grounded.untallied name mem
    have none := magnitude_fresh_tally (grounded.queued phase) mem
    have le := volume_afterPhase_le phase grounded.counting part reads grounded.holds (.inr mem) (by omega)
    omega
  · rw [← count] at small ⊢
    exact volume_afterPhase_le phase grounded.counting part reads grounded.holds (.inl rfl) small

/-- Whichever keys fail, both phases make a course of the root. -/
theorem course (grounded : Grounded verbs stage b q) {first second : List Group}
    (first_part : first.Subperm (groupByKey q.retractions))
    (second_part : second.Subperm (groupByKey q.additions)) (small : load b q < 2 ^ 53) :
    Course verbs stage (load b q) b (revisions stage .retract b first) (afterPhase stage .retract b first)
        (revisions stage .add (afterPhase stage .retract b first) second)
        (afterPhase stage .add (afterPhase stage .retract b first) second) ∧
      Grounded verbs stage (afterPhase stage .add (afterPhase stage .retract b first) second) q ∧
      ∀ q' : Queues, q'.retractions = [] → (q'.additions = [] ∨ second = [] ∧ q'.additions = q.additions) →
        load (afterPhase stage .add (afterPhase stage .retract b first) second) q' ≤ load b q := by
  have sizes : load b q = volume b Field.count + (domain b).card + (2 * (q.entries .add).length +
      (q.entries .retract).length) := rfl
  obtain ⟨middle, counted⟩ := grounded.phase .retract first_part (by omega)
  obtain ⟨last, -⟩ := middle.phase .add second_part (by omega)
  refine ⟨grounded.stocked.course first_part second_part grounded.fits small, last, fun q' none left => ?_⟩
  have total := bulk_count grounded.queued b
  have lighter := (grounded.stocked.remainder first_part second_part none left).2 Field.count (.inl rfl) (by omega)
  rwa [total, bulk_count fun which e mem => grounded.queued which e (mem_entries_of_left none left mem)] at lighter

/-! ### Whole cycles -/

theorem wholeSum_docsOf {entries : List (Key × Document)} (queued : ∀ e ∈ entries, Queued verbs stage e)
    (key : Key) : wholeSum (docsOf entries key) Field.count = (docsOf entries key).length :=
  wholeSum_of_ones fun _ mem => whole_of_int (queued _ (mem_docsOf.1 mem)).fresh.count

/-- Where no key fails, counts change by the numbers of entries. -/
theorem amount_cycle (grounded : Grounded verbs stage b q) {first second : List Group}
    (whole_first : first.Perm (groupByKey q.retractions))
    (whole_second : second.Perm (groupByKey q.additions)) (small : load b q < 2 ^ 53) (key : Key) :
    amount (afterPhase stage .add (afterPhase stage .retract b first) second) Field.count key =
      amount b Field.count key - taken b q key + (docsOf q.additions key).length := by
  have bulked := (bulk_count grounded.queued b).trans_lt small
  have retracted : ∀ e ∈ q.retractions, Queued verbs stage e := grounded.queued .retract
  have added : ∀ e ∈ q.additions, Queued verbs stage e := grounded.queued .add
  rw [grounded.stocked.amount_added (.inl rfl) bulked whole_first.subperm whole_second, wholeSum_docsOf added]
  congr 1
  rw [taken]
  split
  · next stored =>
    rw [grounded.stocked.amount_retracted (.inl rfl) bulked whole_first fun _ => stored,
      wholeSum_docsOf retracted]
  · next missing =>
    rw [amount, get?_afterPhase_of_not_stored (get?_eq_none missing), amount_of_not_mem missing]
    rfl

end Grounded

/-- A cycle keeps every bucket, and every key that is added gets one. -/
theorem mem_domain_cycle {stage : Stage} {b : Buckets} {q : Queues} {first second : List Group}
    (first_part : first.Subperm (groupByKey q.retractions)) (whole_second : second.Perm (groupByKey q.additions)) (key : Key) :
    key ∈ domain (afterPhase stage .add (afterPhase stage .retract b first) second) ↔
      key ∈ domain b ∨ docsOf q.additions key ≠ [] := by
  rw [mem_domain_addAll whole_second, (revised_afterPhase (nodup_of_subperm first_part) b).domain_eq_of_stored
    fun r mem => stored_of_retract mem]

end Rollup.Ingest
