import Rollup.Aggregation
import Rollup.Proofs.Ingest.Histories

/-!
# Ledgers

A ledger tells from the calls on an aggregation alone which events it stands for (`Ledger.events`): those
in its log, and those that count without being there.  An event comes to the latter when it is queued
without being logged, and when its retraction is skipped because no commit has reached an event of its
bucket before.

The buckets of the root, corrected by what is queued, count the events of the ledger (`Balanced`), and
every call keeps it so.
-/

namespace Rollup.Aggregation

open Ingest Ingestor

/-- One call on an aggregation. -/
inductive Op
  | ingest (doc : Document)
  | record (doc : Document)
  | retract (marker : Int64)
  | commit

/-- What calls have done. -/
structure Ledger where
  /-- The entries of the log. -/
  logged : SortedMap Key Document := .empty
  /-- The marker of the next event that is logged. -/
  next : Nat := 0
  /-- Events that count without standing in the log. -/
  beside : List Document := []
  /-- Events that a commit has reached. -/
  reached : List Document := []
  /-- Events that wait for the next commit. -/
  waiting : List Document := []

namespace Ledger

/-- The events that an aggregation stands for. -/
def events (l : Ledger) : List Document := l.logged.toList.map Prod.snd ++ l.beside

/-- A ledger after a call.  The bucket of an event is stored once a commit has reached an event of the
same key; a retraction before that is skipped, although the event leaves the log. -/
def enter (keyOf : Document → Option Key) (l : Ledger) : Op → Ledger
  | .ingest d => { l with beside := l.beside ++ [d], waiting := l.waiting ++ [d] }
  | .record d =>
    { l with
      logged := l.logged.insert (.numbered (Int64.ofNat l.next)) d
      next := l.next + 1
      waiting := l.waiting ++ [d] }
  | .retract marker =>
    match l.logged.get? (.numbered marker) with
    | none => l
    | some d =>
      let left := { l with logged := l.logged.erase (.numbered marker) }
      if l.reached.any fun e => keyOf e = keyOf d then left else { left with beside := l.beside ++ [d] }
  | .commit => { l with reached := l.reached ++ l.waiting, waiting := [] }

/-- The ledger of calls on a new aggregation. -/
def ofOps (keyOf : Document → Option Key) (ops : List Op) : Ledger := ops.foldl (enter keyOf) {}

theorem ofOps_append (keyOf : Document → Option Key) (ops : List Op) (op : Op) :
    ofOps keyOf (ops ++ [op]) = (ofOps keyOf ops).enter keyOf op :=
  List.foldl_append

/-! ## Kept ledgers -/

/-- What holds of the ledger of any calls. -/
structure Kept (l : Ledger) : Prop where
  sorted : l.logged.Sorted
  marked : ∀ key d, l.logged.get? key = some d → ∃ n < l.next, key = .numbered (Int64.ofNat n)
  entered : ∀ d ∈ l.events, d ∈ l.reached ++ l.waiting

theorem kept_empty : Kept {} where
  sorted := SortedMap.sorted_empty
  marked key d found := by cases found
  entered d mem := by cases mem

theorem numbered_ofNat_inj {m n : Nat} (first : m < 2 ^ 63) (second : n < 2 ^ 63)
    (same : Key.numbered (Int64.ofNat m) = .numbered (Int64.ofNat n)) : m = n := by
  have markers : Int64.ofNat m = Int64.ofNat n := by simpa [Key.numbered] using same
  have values := congrArg Int64.toInt markers
  rw [Int64.toInt_ofNat_of_lt first, Int64.toInt_ofNat_of_lt second] at values
  exact_mod_cast values

variable {keyOf : Document → Option Key} {l : Ledger} {d : Document} {marker : Int64}

/-- Markers are handed out once. -/
theorem Kept.unmarked (kept : l.Kept) (left : l.next < 2 ^ 63) :
    l.logged.get? (.numbered (Int64.ofNat l.next)) = none := by
  cases found : l.logged.get? (.numbered (Int64.ofNat l.next)) with
  | none => rfl
  | some d =>
    obtain ⟨n, before, same⟩ := kept.marked _ d found
    have again := numbered_ofNat_inj left (Nat.lt_trans before left) same
    exact absurd again (Nat.ne_of_gt before)

theorem events_ingest (d : Document) : (l.enter keyOf (.ingest d)).events.Perm (d :: l.events) := by
  rw [enter, events, ← List.append_assoc]
  exact List.perm_append_singleton d _

theorem events_record (kept : l.Kept) (left : l.next < 2 ^ 63) (d : Document) :
    (l.enter keyOf (.record d)).events.Perm (d :: l.events) := by
  have logged := (SortedMap.toList_insert_perm (kept.unmarked left) d).map Prod.snd
  exact logged.append_right l.beside

theorem enter_retract (found : l.logged.get? (.numbered marker) = some d) :
    (l.enter keyOf (.retract marker)).logged = l.logged.erase (.numbered marker) ∧
      (l.enter keyOf (.retract marker)).next = l.next ∧
      (l.enter keyOf (.retract marker)).reached = l.reached ∧
      (l.enter keyOf (.retract marker)).waiting = l.waiting := by
  simp only [enter, found]
  split
  · exact ⟨rfl, rfl, rfl, rfl⟩
  · exact ⟨rfl, rfl, rfl, rfl⟩

/-- A retraction takes its event out of the log, and out of the events unless it is skipped. -/
theorem events_retract (kept : l.Kept) (found : l.logged.get? (.numbered marker) = some d) :
    l.events.Perm (if ∃ e ∈ l.reached, keyOf e = keyOf d then d :: (l.enter keyOf (.retract marker)).events
      else (l.enter keyOf (.retract marker)).events) := by
  have logged := (kept.sorted.toList_erase_perm found).map Prod.snd
  have whole := logged.append_right l.beside
  simp only [enter, found, List.any_eq_true, decide_eq_true_eq]
  split
  · exact whole
  · apply whole.trans
    rw [events, ← List.append_assoc]
    exact (List.perm_append_singleton d _).symm

theorem Kept.add {l' : Ledger} (kept : l.Kept) (events : l'.events.Perm (d :: l.events))
    (reached : l'.reached = l.reached) (waiting : l'.waiting = l.waiting ++ [d]) :
    ∀ e ∈ l'.events, e ∈ l'.reached ++ l'.waiting := by
  intro e mem
  rw [reached, waiting, ← List.append_assoc, List.mem_append, List.mem_singleton]
  rcases List.mem_cons.1 (events.subset mem) with rfl | earlier
  · exact .inr rfl
  · exact .inl (kept.entered e earlier)

/-- Every call leaves a kept ledger. -/
theorem Kept.enter (kept : l.Kept) (left : l.next < 2 ^ 63) (op : Op) : (l.enter keyOf op).Kept := by
  cases op with
  | ingest d =>
    exact ⟨kept.sorted, kept.marked, kept.add (events_ingest d) rfl rfl⟩
  | record d =>
    refine ⟨kept.sorted.insert _ _, fun key e found => ?_, kept.add (events_record kept left d) rfl rfl⟩
    rw [Ledger.enter, SortedMap.get?_insert] at found
    split at found
    · next same => exact ⟨l.next, Nat.lt_succ_self _, same⟩
    · obtain ⟨n, before, same⟩ := kept.marked key e found
      exact ⟨n, Nat.lt_succ_of_lt before, same⟩
  | retract marker =>
    cases found : l.logged.get? (.numbered marker) with
    | none => simpa only [Ledger.enter, found] using kept
    | some d =>
      obtain ⟨logged, next, reached, waiting⟩ := @enter_retract keyOf l d marker found
      constructor
      case sorted =>
        rw [logged]
        exact kept.sorted.erase _
      case marked =>
        intro key e stored
        rw [logged, SortedMap.get?_erase] at stored
        rw [next]
        split at stored
        · cases stored
        · exact kept.marked key e stored
      case entered =>
        intro e mem
        rw [reached, waiting]
        apply kept.entered
        apply (@events_retract keyOf l d marker kept found).symm.subset
        split
        · exact List.mem_cons_of_mem d mem
        · exact mem
  | commit =>
    refine ⟨kept.sorted, kept.marked, fun e mem => ?_⟩
    rw [Ledger.enter, List.append_nil]
    exact kept.entered e mem

theorem next_enter_le (keyOf : Document → Option Key) (l : Ledger) (op : Op) : (l.enter keyOf op).next ≤ l.next + 1 := by
  cases op with
  | retract marker =>
    cases found : l.logged.get? (.numbered marker) with
    | none =>
      simp only [enter, found]
      exact Nat.le_succ _
    | some d =>
      rw [(@enter_retract keyOf l d marker found).2.1]
      exact Nat.le_succ _
  | ingest d => exact Nat.le_succ _
  | record d => exact Nat.le_refl _
  | commit => exact Nat.le_succ _

theorem Kept.length_enter_le (kept : l.Kept) (left : l.next < 2 ^ 63) (op : Op) :
    (l.enter keyOf op).events.length ≤ l.events.length + 1 := by
  cases op with
  | ingest d => exact (events_ingest d).length_eq.le
  | record d => exact (events_record kept left d).length_eq.le
  | retract marker =>
    cases found : l.logged.get? (.numbered marker) with
    | none =>
      simp only [Ledger.enter, found]
      exact Nat.le_succ _
    | some d =>
      have same := (@events_retract keyOf l d marker kept found).length_eq
      split at same
      · rw [List.length_cons] at same
        omega
      · omega
  | commit => exact Nat.le_succ _

theorem next_ofOps_le (keyOf : Document → Option Key) (ops : List Op) : (ofOps keyOf ops).next ≤ ops.length := by
  induction ops using List.reverseRecOn with
  | nil => exact Nat.le_refl _
  | append_singleton ops op ih =>
    rw [ofOps_append, List.length_append, List.length_singleton]
    exact (next_enter_le keyOf _ op).trans (Nat.succ_le_succ ih)

/-- The ledger of calls is kept as long as there are markers, and holds an event for every call at most. -/
theorem kept_ofOps (keyOf : Document → Option Key) {ops : List Op} (short : ops.length < 2 ^ 63) :
    (ofOps keyOf ops).Kept ∧ (ofOps keyOf ops).events.length ≤ ops.length := by
  induction ops using List.reverseRecOn with
  | nil => exact ⟨kept_empty, Nat.le_refl _⟩
  | append_singleton ops op ih =>
    rw [List.length_append, List.length_singleton] at short ⊢
    obtain ⟨kept, few⟩ := ih (Nat.lt_of_succ_lt short)
    have left : (ofOps keyOf ops).next < 2 ^ 63 :=
      Nat.lt_of_le_of_lt (next_ofOps_le keyOf ops) (Nat.lt_of_succ_lt short)
    rw [ofOps_append]
    exact ⟨kept.enter left op, (kept.length_enter_le left op).trans (Nat.succ_le_succ few)⟩

end Ledger

/-! ## What the root counts -/

theorem members_perm {root : Stage} {docs docs' : List Document} (perm : docs.Perm docs') (key : Key) :
    members root docs key = members root docs' key :=
  perm.countP_eq _

/-- A key is queued when an event of it is. -/
theorem docsOf_filterMap_ne_nil {root : Stage} {docs : List Document} {key : Key} :
    docsOf (docs.filterMap root.map?) key ≠ [] ↔ ∃ d ∈ docs, root.key? d = some key := by
  constructor
  · intro filled
    obtain ⟨e, mem⟩ := List.exists_mem_of_ne_nil _ filled
    obtain ⟨d, listed, made⟩ := List.mem_filterMap.1 (mem_docsOf.1 mem)
    refine ⟨d, listed, ?_⟩
    rw [Stage.key?, made]
    rfl
  · rintro ⟨d, listed, own⟩
    obtain ⟨entry, made, rfl⟩ := Option.map_eq_some_iff.1 own
    exact List.ne_nil_of_mem (mem_docsOf.2 (List.mem_filterMap.2 ⟨d, listed, made⟩))

theorem length_additions_push (root : Stage) (q : Queues) (d : Document) (key : Key) :
    (docsOf ((root.map? d).elim q (q.push · .add)).additions key).length =
      (docsOf q.additions key).length + if root.key? d = some key then 1 else 0 := by
  rw [Stage.key?]
  cases root.map? d with
  | none => rfl
  | some entry =>
    simp only [Option.map_some, Option.some.injEq]
    exact length_docsOf_append q.additions entry key

theorem taken_push (root : Stage) (b : Ingest.Buckets) (q : Queues) (d : Document) (key : Key) :
    taken b ((root.map? d).elim q (q.push · .retract)) key =
      taken b q key + if root.key? d = some key ∧ key ∈ domain b then 1 else 0 := by
  rw [Stage.key?]
  cases root.map? d with
  | none => rfl
  | some entry =>
    have longer : (docsOf (q.push entry .retract).retractions key).length =
        (docsOf q.retractions key).length + if entry.1 = key then 1 else 0 := length_docsOf_append _ _ _
    rw [Option.elim_some, taken, taken, longer]
    by_cases stored : key ∈ domain b
    · simp [stored]
    · simp [stored]

/-- The root counts the events of a ledger, but for what is queued; it stores the buckets that a commit has
reached. -/
structure Balanced (root : Stage) (q : Queues) (b : Ingest.Buckets) (l : Ledger) : Prop where
  count : ∀ key, amount b Field.count key + (docsOf q.additions key).length - taken b q key =
    members root l.events key
  stored : ∀ key, key ∈ domain b ↔ ∃ d ∈ l.reached, root.key? d = some key
  waiting : q.additions = l.waiting.filterMap root.map?

namespace Balanced

variable {root : Stage} {q : Queues} {b : Ingest.Buckets} {l l' : Ledger} {d : Document}

theorem add (balanced : Balanced root q b l) (events : l'.events.Perm (d :: l.events))
    (reached : l'.reached = l.reached) (waiting : l'.waiting = l.waiting ++ [d]) :
    Balanced root ((root.map? d).elim q (q.push · .add)) b l' := by
  constructor
  case stored =>
    rw [reached]
    exact balanced.stored
  case waiting =>
    rw [waiting, List.filterMap_append, ← balanced.waiting]
    cases made : root.map? d <;> simp [made, Queues.push]
  case count =>
    intro key
    have count := balanced.count key
    have same : taken b ((root.map? d).elim q (q.push · .add)) key = taken b q key := by
      cases root.map? d <;> rfl
    rw [members_perm events, members_cons, length_additions_push, same]
    split <;> push_cast <;> omega

/-- The ledger skips the retractions that the root skips. -/
theorem retract {marker : Int64} (balanced : Balanced root q b l) (kept : l.Kept)
    (found : l.logged.get? (.numbered marker) = some d) :
    Balanced root ((root.map? d).elim q (q.push · .retract)) b (l.enter root.key? (.retract marker)) := by
  obtain ⟨-, -, reached, waiting⟩ := @Ledger.enter_retract root.key? l d marker found
  have events := @Ledger.events_retract root.key? l d marker kept found
  have additions : ((root.map? d).elim q (q.push · .retract)).additions = q.additions := by
    cases root.map? d <;> rfl
  constructor
  case stored =>
    rw [reached]
    exact balanced.stored
  case waiting =>
    rw [waiting, additions]
    exact balanced.waiting
  case count =>
    intro key
    have count := balanced.count key
    rw [members_perm events] at count
    rw [additions, taken_push]
    split at count
    · next reached =>
      -- The bucket is stored, so the cycle takes off what the ledger takes off.
      obtain ⟨e, listed, alike⟩ := reached
      rw [members_cons] at count
      by_cases own : root.key? d = some key
      · have here : key ∈ domain b := (balanced.stored key).2 ⟨e, listed, alike.trans own⟩
        simp only [own, here, and_self, if_true] at count ⊢
        push_cast at count ⊢
        omega
      · simp only [own, false_and, if_false] at count ⊢
        exact count
    · next skipped =>
      have missing : ¬ (root.key? d = some key ∧ key ∈ domain b) := by
        rintro ⟨own, here⟩
        obtain ⟨e, listed, alike⟩ := (balanced.stored key).1 here
        exact skipped ⟨e, listed, alike.trans own.symm⟩
      rw [if_neg missing]
      exact count

/-- A cycle works off what is queued. -/
theorem cycle {verbs : List Verb} (balanced : Balanced root q b l) (grounded : Grounded verbs root b q)
    {first second : List Group} (whole_first : first.Perm (groupByKey q.retractions))
    (whole_second : second.Perm (groupByKey q.additions)) (small : Ingest.load b q < 2 ^ 53) :
    Balanced root {} (afterPhase root .add (afterPhase root .retract b first) second)
      (l.enter root.key? .commit) := by
  constructor
  case count =>
    intro key
    have count := balanced.count key
    rw [grounded.amount_cycle whole_first whole_second small key, taken_empty]
    change _ + (0 : Int) - 0 = members root l.events key
    omega
  case stored =>
    intro key
    rw [mem_domain_cycle whole_first.subperm whole_second, balanced.stored, balanced.waiting,
      docsOf_filterMap_ne_nil]
    simp only [Ledger.enter, List.mem_append, or_and_right, exists_or]
  case waiting => rfl

end Balanced

end Rollup.Aggregation
