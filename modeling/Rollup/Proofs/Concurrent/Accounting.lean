import Rollup.Proofs.Concurrent.Counts
import Rollup.Proofs.Query

/-!
# Every entry in one place

Whatever the threads on an ingestor do, every entry that was queued is in exactly one place, a bucket
that is about to be written was made from what is stored, and each finished batch has been applied
once (`Accounted`).  Where entries are only added, the counts of the root tell how many were applied
(`Counted`).
-/

namespace Rollup

/-- How many entries of a key wait to be added. -/
def Queues.adding (q : Queues) (key : Key) : Nat := (Ingest.docsOf q.additions key).length

namespace Concurrent

open Ingest

/-! ## Crews -/

/-- The crews that are at work. -/
def Floor.crews (f : Floor) : List Crew := f.threads.filterMap fun t => t.cycle?.bind Cycle.crew?

/-- The keys that are being read and written. -/
def Floor.pending (f : Floor) : List Key := f.crews.flatMap Crew.pending

theorem filterMap_eq_of_alone {α β : Type} {g : α → Option β} {xs : List α} {i : Nat}
    (others : ∀ k, k ≠ i → xs[k]?.bind g = none) : xs.filterMap g = (xs[i]?.bind g).toList := by
  induction xs generalizing i with
  | nil => rfl
  | cons x rest ih =>
    cases i with
    | zero =>
      have later : rest.filterMap g = [] := by
        rw [List.filterMap_eq_nil_iff]
        intro y mem
        obtain ⟨k, at_⟩ := List.mem_iff_getElem?.1 mem
        have none := others (k + 1) (Nat.succ_ne_zero k)
        rwa [List.getElem?_cons_succ, at_] at none
      rw [List.filterMap_cons, later]
      cases made : g x <;> simp [made]
    | succ i =>
      have first : g x = none := others 0 (Nat.succ_ne_zero i).symm
      rw [List.filterMap_cons, first, List.getElem?_cons_succ]
      refine ih fun k other => ?_
      rw [← List.getElem?_cons_succ]
      exact others (k + 1) fun same => other (Nat.succ.inj same)

/-- Only the crew of the leader is at work. -/
theorem Manned.crews_eq {root : Site} {behindSites : List Site} {base : Buckets} {leader? : Option (Nat × Cycle)}
    {j : Journal} {f : Floor} (manned : Manned root behindSites base leader? j f) :
    f.crews = ((leader?.map Prod.snd).bind Cycle.crew?).toList := by
  have crew (k : Nat) : (f.threads[k]?.bind fun t => t.cycle?.bind Cycle.crew?) = (f.cycle? k).bind Cycle.crew? := by
    rw [Floor.cycle?_eq, Option.bind_assoc]
  cases leader? with
  | none =>
    -- No thread leads, not even one past the last.
    rw [Floor.crews, filterMap_eq_of_alone (i := f.threads.length), crew, manned.others _ (by simp)]
    · rfl
    · intro k _
      rw [crew, manned.others k (by simp)]
      rfl
  | some leader =>
    rw [Floor.crews, filterMap_eq_of_alone (i := leader.1), crew, (manned.leads leader.1 leader.2).2 rfl]
    · rfl
    · intro k other
      rw [crew, manned.others k (by simpa using Ne.symm other)]
      rfl

/-! ## Places -/

/-- Where the entries are at any moment, and what the root holds; `base` are the buckets of the root
as they were at the start. -/
structure Accounted (root : Site) (base : Buckets) (j : Journal) (f : Floor) : Prop where
  /-- An entry is in a finished batch, in the batch of the running cycle or in a queue. -/
  once : ∀ phase, j.pushed.entries phase =
    j.finished.flatMap (·.entries phase) ++ j.running.entries phase ++ f.rootQueues.entries phase
  /-- At most one thread leads a cycle. -/
  alone : ∀ i k, (f.cycle? i).isSome → (f.cycle? k).isSome → i = k
  /-- Without a leader no batch is running, and the root is as the finished ones make it. -/
  idle : (∀ i, f.cycle? i = none) → j.running = {} ∧
    ∀ key, f.world.store.get? root.scope key = (j.buckets root.stage base).get? key
  /-- No key is read and written twice at a time. -/
  apart : f.pending.Nodup
  /-- A bucket that is about to be written is what the entries of its key make of the stored one. -/
  current : ∀ crew ∈ f.crews, ∀ w ∈ crew.workers, ∀ r, w.ready = some r → ∃ phase,
    revise? root.stage phase (r.key, docsOf (j.running.entries phase) r.key)
      (f.world.store.get? root.scope r.key) = some r

theorem Manned.accounted {root : Site} {behindSites : List Site} {base : Buckets} {leader? : Option (Nat × Cycle)}
    {j : Journal} {f : Floor} (manned : Manned root behindSites base leader? j f) : Accounted root base j f := by
  have stands := manned.stands
  -- All parts but the first are about the leader, if there is one, and what its cycle is at.
  refine ⟨manned.split, fun i k leads leads' => ?_, fun quiet => ?_, ?_, fun crew mem w member r ready => ?_⟩
  · obtain ⟨cycle, led⟩ := Option.isSome_iff_exists.1 leads
    obtain ⟨cycle', led'⟩ := Option.isSome_iff_exists.1 leads'
    have same := ((manned.leads i cycle).1 led).symm.trans ((manned.leads k cycle').1 led')
    exact congrArg Prod.fst (Option.some.inj same)
  · cases leader? with
    | none => exact stands
    | some leader => exact absurd ((manned.leads leader.1 leader.2).2 rfl) (by simp [quiet])
  · rw [Floor.pending, manned.crews_eq]
    cases leader? with
    | none => exact List.nodup_nil
    | some leader =>
      obtain ⟨i, cycle⟩ := leader
      cases (show Underway _ _ _ _ cycle from stands) with
      | revising touched blank work => simpa [Cycle.crew?] using work.nodup
      | draining _ _ _ | flushing _ _ | ending _ _ => exact List.nodup_nil
  · rw [manned.crews_eq] at mem
    cases leader? with
    | none => cases mem
    | some leader =>
      obtain ⟨i, cycle⟩ := leader
      cases (show Underway _ _ _ _ cycle from stands) with
      | draining _ _ _ | flushing _ _ | ending _ _ => cases mem
      | @revising phase touched crew' blank work =>
        obtain rfl : crew = crew' := List.mem_singleton.1 mem
        obtain ⟨group, listed, made⟩ := work.ready w member r ready
        obtain ⟨own, old⟩ := revise?_keeps made
        have key : group = (r.key, docsOf (j.running.entries phase) r.key) := by
          rw [own, ← (mem_groupByKey.1 listed).1]
        refine ⟨phase, ?_⟩
        rw [Store.get?_eq, ← work.old_eq member ready, old, own, ← made]
        rw [key, own]

/-! ## Counts -/

/-- The count of the root's bucket of a key, zero where there is none. -/
def Floor.rootCount (f : Floor) (scope : ScopeId) (key : Key) : Int :=
  (f.world.store.get? scope key).elim 0 (Document.whole · Field.count)

/-- How many entries of a key were drained to be added and are not applied yet. -/
def Journal.unapplied (j : Journal) (f : Floor) (key : Key) : Nat :=
  if key ∈ f.pending then j.running.adding key else 0

/-- The count of the root, the entries of a key that wait in the queue and those that were drained and
are not applied yet make up what was queued.  A count stops at the end of its range. -/
structure Counted (scope : ScopeId) (j : Journal) (f : Floor) (key : Key) : Prop where
  capped : f.rootCount scope key =
    min (j.pushed.adding key - f.rootQueues.adding key - j.unapplied f key : Int) Int64.maxValue.toInt
  exact : j.pushed.adding key ≤ Int64.maxValue.toInt →
    f.rootCount scope key + f.rootQueues.adding key + j.unapplied f key = j.pushed.adding key

theorem Queues.adding_eq_zero {q : Queues} (none : q.additions = []) (key : Key) : q.adding key = 0 := by
  rw [Queues.adding, none]
  rfl

/-- How far a cycle has come with a key: all its entries were applied, or none. -/
theorem Underway.countAt {stage : Stage} {base b : Buckets} {batch : Queues} {cycle : Cycle} {key : Key} {n : Nat}
    (underway : Underway stage base b batch cycle) (counting : Counting stage.reduces)
    (unretracted : batch.retractions = []) (ones : ∀ e ∈ batch.additions, Document.HasInt e.2 Field.count 1)
    (counted : CountAt (base.get? key) n) :
    ∃ applied, CountAt (b.get? key) (n + applied) ∧
      applied + (if key ∈ cycle.crew?.toList.flatMap Crew.pending then batch.adding key else 0) =
        batch.adding key := by
  have kept : retracted stage base batch = base := by
    rw [retracted, unretracted]
    rfl
  have before (phase : Phase) : beforePhase stage base batch phase = base := by
    cases phase with
    | retract => rfl
    | add => exact kept
  have added := counted.afterPhase counting ones
  cases underway with
  | @draining phase touched blank same =>
    have none : batch.additions = [] := by
      cases phase with
      | retract => exact congrArg Queues.additions blank
      | add => exact blank
    refine ⟨0, ?_, ?_⟩
    · rw [same, before]
      exact counted
    · simp [Queues.adding_eq_zero none]
  | @revising phase touched crew blank work =>
    have pending_iff : key ∈ (Cycle.revising phase touched crew).crew?.toList.flatMap Crew.pending ↔
        key ∈ crew.pending := by simp [Cycle.crew?]
    cases phase with
    | retract =>
      -- There is nothing to retract, and nothing to add was drained.
      have none : batch.additions = [] := blank
      refine ⟨0, ?_, by simp [Queues.adding_eq_zero none]⟩
      have same : b.get? key = base.get? key := by
        by_cases waits : key ∈ crew.pending
        · exact work.pending key waits
        · refine (work.settled key waits).trans ?_
          show (retracted stage base batch).get? key = _
          rw [kept]
      rw [same]
      exact counted
    | add =>
      by_cases waits : key ∈ crew.pending
      · refine ⟨0, ?_, by simp [pending_iff, waits]⟩
        rw [work.pending key waits, before]
        exact counted
      · refine ⟨batch.adding key, ?_, by simp [pending_iff, waits]⟩
        rw [work.settled key waits, before]
        exact added
  | flushing touched same | ending touched same =>
    refine ⟨batch.adding key, ?_, rfl⟩
    rw [same, replay, kept]
    exact added

namespace Manned

variable {root : Site} {behindSites : List Site} {base : Buckets} {leader? : Option (Nat × Cycle)} {j : Journal}
  {f : Floor} {verbs : List Verb}

/-- Every entry of the root counts once. -/
theorem hasInt_drained (manned : Manned root behindSites base leader? j f) (counting : Counting verbs)
    (stage : root.stage = Stage.root verbs) (phase : Phase) :
    ∀ e ∈ j.drained phase, Document.HasInt e.2 Field.count 1 := by
  intro e mem
  have pushed : e ∈ j.pushed.entries phase := by
    rw [manned.split phase]
    exact List.mem_append_left _ mem
  obtain ⟨doc, made⟩ := manned.made phase e pushed
  rw [stage] at made
  exact ⟨1, (fresh_root_map? counting made).count, rfl⟩

theorem unretracted (manned : Manned root behindSites base leader? j f) (none : j.pushed.retractions = []) :
    (∀ batch ∈ j.finished, batch.retractions = []) ∧ j.running.retractions = [] := by
  have split := manned.split .retract
  simp only [Queues.entries, Journal.drained] at split
  rw [none, eq_comm, List.append_eq_nil_iff, List.append_eq_nil_iff, List.flatMap_eq_nil_iff] at split
  exact split.1

theorem adding_pushed (manned : Manned root behindSites base leader? j f) (key : Key) :
    j.pushed.adding key =
      (docsOf (j.finished.flatMap Queues.additions) key).length + j.running.adding key + f.rootQueues.adding key := by
  have split := manned.split .add
  simp only [Queues.entries, Journal.drained] at split
  simp only [Queues.adding, split, docsOf_append, List.length_append]

/-- The root counts the entries of the finished batches, and those of the running one that were
applied. -/
theorem countAt (manned : Manned root behindSites base leader? j f) (counting : Counting verbs)
    (stage : root.stage = Stage.root verbs) (empty : base = .empty) (none : j.pushed.retractions = []) (key : Key) :
    ∃ applied, CountAt (f.world.store.get? root.scope key)
        ((docsOf (j.finished.flatMap Queues.additions) key).length + applied) ∧
      applied + j.unapplied f key = j.running.adding key := by
  have folds : Counting root.stage.reduces := by
    rw [stage]
    exact counting.filter_reduces
  have ones := manned.hasInt_drained counting stage .add
  have unretracted := manned.unretracted none
  have nothing : CountAt (base.get? key) 0 := by
    rw [empty]
    rfl
  have finished := nothing.foldl_replay folds unretracted.1 fun batch mem e member =>
    ones e (List.mem_append_left _ (List.mem_flatMap.2 ⟨batch, mem, member⟩))
  rw [Nat.zero_add] at finished
  have stands := manned.stands
  -- Between cycles nothing of a batch is left; within one the leader tells how far it is.
  rw [Journal.unapplied, Floor.pending, manned.crews_eq, Store.get?_eq]
  cases leader? with
  | none =>
    obtain ⟨blank, same⟩ := stands
    refine ⟨0, ?_, by simp [blank, Queues.adding_eq_zero]⟩
    rw [same]
    exact finished
  | some leader =>
    have underway : Underway _ _ _ _ leader.2 := stands
    exact underway.countAt folds unretracted.2 (fun e mem => ones e (List.mem_append_right _ mem)) finished

theorem counted (manned : Manned root behindSites base leader? j f) (counting : Counting verbs)
    (stage : root.stage = Stage.root verbs) (empty : base = .empty) (none : j.pushed.retractions = []) (key : Key) :
    Counted root.scope j f key := by
  obtain ⟨applied, counted, rest⟩ := manned.countAt counting stage empty none key
  have pushed := manned.adding_pushed key
  have count : f.rootCount root.scope key = _ := counted.whole
  refine ⟨?_, fun fits => ?_⟩
  · rw [count, pushed]
    omega
  · rw [count]
    omega

end Manned

/-! ## Runs -/

/-- Whatever the threads on an ingestor do and in whatever order, every entry is in one place, cycles
never overlap, and the counts of the root tell how many entries were applied. -/
theorem entries_accounted (p : Pipeline) {config : Config} (valid : config.validate = .ok ()) {w : World}
    (never : w.plan = .never) (nested : w.store.Nested) {scope : ScopeId} (open_ : scope < w.store.scopes.length) :
    ∃ (t : Ingestor.Session) (root : Site),
      (Ingestor.openAt scope p config : Action Error Unit Ingestor).run () w = (.ok t.1, (), t.2) ∧
      t.1.sites.head? = some root ∧ root.scope = scope ∧
      ∀ calls : List Thread, (∀ call ∈ calls, call.IsCall) → ∀ (schedule : Floor.Schedule) (g : Floor),
        (Floor.start t calls).run? schedule = some g →
        let j := ({} : Journal).keep (.start t calls) schedule
        Accounted root (w.store.buckets scope) j g ∧
          ∀ q : Query, q.compile = .ok p → q.OutputsApart → w.store.buckets scope = .empty →
            j.pushed.retractions = [] → ∀ key, Counted scope j g key := by
  obtain ⟨root, behindSites, t, ran, ingestor, plan, stages, rfl, placed, same⟩ :=
    Ingestor.run_openAt p valid nested open_ (never ▸ FaultPlan.never_rootOnly.mild)
  refine ⟨t, root, ran, by rw [ingestor]; rfl, rfl, fun calls fresh schedule g went => ?_⟩
  have start := Manned.start ingestor (plan.trans never) placed fresh
  rw [same] at start
  obtain ⟨leader?, manned⟩ := start.run went
  refine ⟨manned.accounted, fun q compiled outputs empty unretracted key => ?_⟩
  obtain ⟨verbs, read, rfl⟩ := Query.exists_read_of_compile compiled
  have apart : ColumnsApart verbs := Query.columnsApart_of_read read outputs
  have stage : root.stage = Stage.root (Pipeline.composition verbs) := (List.cons.inj stages).1
  exact manned.counted (Pipeline.counting_composition apart) stage empty unretracted key

/-- A document is queued while the entry of another is being applied. -/
theorem entries_accounted_amid_cycle :
    let q : Query := .alone (.brokenDownBy "a" "A")
    let p := Pipeline.ofVerbs [.brokenDownBy "a" "A"]
    let config : Config := { commitThreshold := 0 }
    let calls : List Thread := [.ingest ⟨[("a", .text "x")]⟩, .commit, .ingest ⟨[("a", .text "y")]⟩]
    let schedule : Floor.Schedule := [(0, 0), (1, 0), (1, 0), (1, 0), (2, 0), (1, 0)]
    q.compile = .ok p ∧ ∃ (t : Ingestor.Session) (root : Site) (g : Floor),
      (Ingestor.openAt Store.root p config : Action Error Unit Ingestor).run () {} = (.ok t.1, (), t.2) ∧
      (Floor.start t calls).run? schedule = some g ∧
      let j := ({} : Journal).keep (.start t calls) schedule
      Accounted root .empty j g ∧ ∀ key, Counted Store.root j g key := by
  intro q p config calls schedule
  have compiled : q.compile = .ok p := rfl
  have valid : config.validate = .ok () := rfl
  obtain ⟨t, root, ran, -, -, accounts⟩ :=
    @entries_accounted p config valid {} rfl Store.nested_fresh Store.root Nat.zero_lt_one
  obtain rfl : t = ({ sites := [⟨p.root, Store.root⟩], queues := [{}], config }, {}) := Ingestor.session_unique ran rfl
  have fresh : ∀ call ∈ calls, call.IsCall := by
    intro call mem
    simp only [calls, List.mem_cons, List.not_mem_nil, or_false] at mem
    rcases mem with rfl | rfl | rfl <;> trivial
  obtain ⟨g, went⟩ := Option.isSome_iff_exists.1 (by decide +kernel :
    ((Floor.start ({ sites := [⟨p.root, Store.root⟩], queues := [{}], config }, {}) calls).run? schedule).isSome = true)
  obtain ⟨accounted, counted⟩ := accounts calls fresh schedule g went
  refine ⟨compiled, _, root, g, ran, went, accounted, counted q compiled ⟨by decide, by decide⟩ rfl ?_⟩
  rfl

end Concurrent

end Rollup
