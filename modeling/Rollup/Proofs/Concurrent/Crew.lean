import Rollup.Concurrent.Crew
import Rollup.Proofs.Ingest.Processing

/-!
# Crews at work

While a crew is at work on the groups of a phase, every bucket is as it was before the phase or
already as the phase leaves it (`AtWork`).  It is still as before while its key is pending: its group
was not begun, or its revision is about to be written.  No key is pending twice, so a revision that
is about to be written tells what is stored at that moment, however the calls of the workers
interleave.
-/

namespace Rollup

namespace Ingest

/-- A bucket that a phase does not revise stays as it was. -/
theorem get?_afterPhase_of_revise?_none {stage : Stage} {phase : Phase} {b : Buckets} {groups : List Group}
    (nodup : (groups.map Prod.fst).Nodup) {group : Group} (mem : group ∈ groups)
    (kept : revise? stage phase group (b.get? group.1) = none) :
    (afterPhase stage phase b groups).get? group.1 = b.get? group.1 := by
  refine get?_applyAll_of_not_mem (fun revised => ?_) b
  obtain ⟨r, member, same⟩ := List.mem_map.1 revised
  obtain ⟨other, mem', own, made⟩ := mem_revisions.1 member
  obtain rfl : other = group := List.inj_on_of_nodup_map nodup mem' mem (own.symm.trans same)
  rw [own, kept] at made
  cases made

end Ingest

namespace Concurrent

open Ingest

variable {σ : Type}

/-! ## One worker -/

namespace Worker

/-- The keys that a worker has not settled yet, the next first. -/
def pending (w : Worker) : List Key := w.ready.toList.map Revision.key ++ w.todo.map Prod.fst

/-- Nothing has gone wrong with a worker. -/
def Sane (w : Worker) : Prop := w.crashed = false ∧ w.progress.failed = none

theorem pending_of_isDone {w : Worker} (sane : w.Sane) (done : w.isDone = true) : w.pending = [] := by
  rw [isDone, sane.1, Bool.false_or, Bool.and_eq_true, Option.isNone_iff_eq_none, List.isEmpty_iff] at done
  rw [pending, done.1, done.2]
  rfl

theorem Sane.result {w : Worker} (sane : w.Sane) : w.result = .ok w.progress := by
  rw [Worker.result, sane.1]
  rfl

/-- What one call of a worker does to it and to the store. -/
inductive Turn (site : Site) (phase : Phase) (s : Store) : Worker → Store → Worker → Prop
  /-- There is nothing left to do. -/
  | rests {w : Worker} (done : w.isDone = true) : Turn site phase s w s w
  /-- A bucket was read that will be revised. -/
  | plans {todo : List Group} {group : Group} {progress : Progress} {r : Revision}
      (made : revise? site.stage phase group ((s.buckets site.scope).get? group.1) = some r) :
      Turn site phase s ⟨group :: todo, none, progress, false⟩ s ⟨todo, some r, progress, false⟩
  /-- A bucket was read that stays as it is. -/
  | skips {todo : List Group} {group : Group} {progress : Progress}
      (kept : revise? site.stage phase group ((s.buckets site.scope).get? group.1) = none) :
      Turn site phase s ⟨group :: todo, none, progress, false⟩ s ⟨todo, none, progress.add (.ok none), false⟩
  /-- A revised bucket was written. -/
  | writes {todo : List Group} {progress : Progress} (r : Revision) :
      Turn site phase s ⟨todo, some r, progress, false⟩ (s.set site.scope r.key (some r.new))
        ⟨todo, none, progress.add (.ok (some r)), false⟩

/-- A call of a worker passes, or the store refuses it. -/
inductive Call (site : Site) (phase : Phase) (plan : FaultPlan) (s : Store) : Worker → Store → Worker → Prop
  | passes {s' : Store} {w w' : Worker} (turn : Turn site phase s w s' w') : Call site phase plan s w s' w'
  /-- A bucket could not be read. -/
  | misreads {todo : List Group} {group : Group} {progress : Progress} {f : Failure Error}
      (failing : plan.FailsAt site.scope .get (some group.1) f) :
      Call site phase plan s ⟨group :: todo, none, progress, false⟩ s
        (receive ⟨todo, none, progress, false⟩ (.error f))
  /-- A revised bucket could not be written. -/
  | miswrites {todo : List Group} {r : Revision} {progress : Progress} {f : Failure Error}
      (failing : plan.FailsAt site.scope .set (some r.key) f) :
      Call site phase plan s ⟨todo, some r, progress, false⟩ s
        (receive ⟨todo, none, progress, false⟩ (.error f))

theorem run_call (site : Site) (phase : Phase) (w : Worker) (l : σ) (world : World) :
    ∃ w' world', (w.step site phase).run l world = (.ok w', l, world') ∧ world'.plan = world.plan ∧
      Call site phase world.plan world.store w world'.store w' := by
  obtain ⟨todo, ready, progress, crashed⟩ := w
  cases crashed with
  | true => exact ⟨_, world, rfl, rfl, .passes (.rests rfl)⟩
  | false =>
    rw [step, if_neg Bool.false_ne_true]
    -- A worker with a revision in hand writes it; one without reads the bucket of its next group.
    cases ready with
    | some r =>
      let idle : Worker := ⟨todo, none, progress, false⟩
      obtain ⟨world', plan, ⟨f, failing, store, ran⟩ | ⟨-, store, ran⟩⟩ := run_write site r l world
      · refine ⟨idle.receive (.error f), world', ?_, plan, store ▸ .miswrites failing⟩
        simp only [Action.run_bind, Action.run_attempt, ran]
        rfl
      · refine ⟨idle.receive (.ok (some r)), world', ?_, plan, store ▸ .passes (.writes r)⟩
        simp only [Action.run_bind, Action.run_attempt, ran]
        rfl
    | none =>
      cases todo with
      | nil => exact ⟨_, world, rfl, rfl, .passes (.rests rfl)⟩
      | cons group todo =>
        let idle : Worker := ⟨todo, none, progress, false⟩
        obtain ⟨world', plan, store, ⟨f, failing, ran⟩ | ran⟩ := run_plan? site phase group l world
        · refine ⟨idle.receive (.error f), world', ?_, plan, store ▸ .misreads failing⟩
          simp only [Action.run_bind, Action.run_attempt, ran]
          rfl
        · simp only [Action.run_bind, Action.run_attempt, ran]
          cases made : revise? site.stage phase group ((world.store.buckets site.scope).get? group.1) with
          | none =>
            refine ⟨idle.receive (.ok none), world', rfl, plan, ?_⟩
            rw [store]
            exact .passes (.skips made)
          | some r =>
            refine ⟨⟨todo, some r, progress, false⟩, world', rfl, plan, ?_⟩
            rw [store]
            exact .passes (.plans made)

/-- Where the store spares the scope, every call passes. -/
theorem Call.turn {site : Site} {phase : Phase} {plan : FaultPlan} {s s' : Store} {w w' : Worker}
    (call : Call site phase plan s w s' w') (spares : plan.Spares site.scope) : Turn site phase s w s' w' := by
  cases call with
  | passes turn => exact turn
  | misreads failing | miswrites failing => exact absurd failing.fails (spares _)

theorem Turn.sane {site : Site} {phase : Phase} {s s' : Store} {w w' : Worker}
    (turn : Turn site phase s w s' w') (sane : w.Sane) : w'.Sane := by
  cases turn with
  | rests => exact sane
  | plans made | skips kept | writes r => exact sane

theorem Turn.length {site : Site} {phase : Phase} {s s' : Store} {w w' : Worker}
    (turn : Turn site phase s w s' w') : s'.scopes.length = s.scopes.length := by
  cases turn with
  | rests | plans made | skips kept => rfl
  | writes r => exact s.length_set _ _ _

end Worker

/-! ## Crews -/

/-- A call that is the turn of the worker with number `i` leaves the other workers as they are. -/
inductive Crew.Call (site : Site) (phase : Phase) (plan : FaultPlan) (i : Nat) (s : Store) :
    Crew → Store → Crew → Prop
  | nobody {c : Crew} (absent : c.workers.length ≤ i) : Crew.Call site phase plan i s c s c
  | one {s' : Store} (divided : Bool) (front : List Worker) {w w' : Worker} (back : List Worker)
      (place : front.length = i) (call : Worker.Call site phase plan s w s' w') :
      Crew.Call site phase plan i s ⟨divided, front ++ w :: back⟩ s' ⟨divided, front ++ w' :: back⟩

theorem Crew.run_call (site : Site) (phase : Phase) (crew : Crew) (i : Nat) (l : σ) (world : World) :
    ∃ crew' world', (crew.step site phase i).run l world = (.ok crew', l, world') ∧ world'.plan = world.plan ∧
      Crew.Call site phase world.plan i world.store crew world'.store crew' := by
  obtain ⟨divided, workers⟩ := crew
  cases found : workers[i]? with
  | none =>
    refine ⟨_, world, ?_, rfl, .nobody (List.getElem?_eq_none_iff.1 found)⟩
    simp only [Crew.step, found]
    rfl
  | some w =>
    obtain ⟨present, rfl⟩ := List.getElem?_eq_some_iff.1 found
    obtain ⟨w', world', ran, plan, call⟩ := Worker.run_call site phase workers[i] l world
    obtain ⟨front, back, split, place, replaced⟩ := @List.exists_of_set _ i w' workers present
    refine ⟨⟨divided, workers.set i w'⟩, world', ?_, plan, ?_⟩
    · simp only [Crew.step, found, Action.run_bind, ran]
      rfl
    · rw [replaced]
      generalize workers[i] = w at split call
      subst split
      exact .one divided front back place call

/-- The keys that a crew has not settled yet. -/
def Crew.pending (c : Crew) : List Key := c.workers.flatMap Worker.pending

/-- A crew is at work on the groups of a phase: `before` are the buckets as they were, and `b` as they
are now. -/
structure AtWork (stage : Stage) (phase : Phase) (before : Buckets) (groups : List Group) (crew : Crew)
    (b : Buckets) : Prop where
  sane : ∀ w ∈ crew.workers, w.Sane
  todo : ∀ w ∈ crew.workers, ∀ group ∈ w.todo, group ∈ groups
  ready : ∀ w ∈ crew.workers, ∀ r, w.ready = some r →
    ∃ group ∈ groups, revise? stage phase group (before.get? group.1) = some r
  nodup : crew.pending.Nodup
  pending : ∀ key ∈ crew.pending, b.get? key = before.get? key
  settled : ∀ key, key ∉ crew.pending → b.get? key = (afterPhase stage phase before groups).get? key

/-- Workers have failed together if one of them has. -/
theorem failed_joinAll_iff (workers : List Worker) :
    (Crew.joinAll workers).failed = none ↔ ∀ w ∈ workers, (workerProgress w.result).failed = none := by
  suffices ∀ p : Progress, (workers.foldl (fun p w => p.join (workerProgress w.result)) p).failed = none ↔
      p.failed = none ∧ ∀ w ∈ workers, (workerProgress w.result).failed = none by
    rw [Crew.joinAll, this]
    exact and_iff_right rfl
  induction workers with
  | nil => exact fun p => (and_iff_left nofun).symm
  | cons w rest ih =>
    intro p
    rw [List.foldl_cons, ih, Progress.join, Option.or_eq_none_iff, and_assoc, List.forall_mem_cons]

theorem failed_joinAll {workers : List Worker} (sane : ∀ w ∈ workers, w.Sane) :
    (Crew.joinAll workers).failed = none := by
  refine (failed_joinAll_iff workers).2 fun w mem => ?_
  rw [(sane w mem).result]
  exact (sane w mem).2

theorem forall_mem_middle {α : Type} {p : α → Prop} {front back : List α} {x y : α}
    (all : ∀ z ∈ front ++ x :: back, p z) (one : p y) : ∀ z ∈ front ++ y :: back, p z := by
  rw [List.forall_mem_append, List.forall_mem_cons] at all ⊢
  exact ⟨all.1, one, all.2.2⟩

namespace AtWork

variable {stage : Stage} {phase : Phase} {before b b' : Buckets} {groups : List Group} {crew : Crew}

/-- A crew starts with the groups of the phase dealt to its workers, each to one of them. -/
theorem ofParts (divided : Bool) {parts : List (List Group)} (dealt : parts.flatten.Perm groups)
    (same : ∀ key, b.get? key = before.get? key) (nodup : (groups.map Prod.fst).Nodup) :
    AtWork stage phase before groups ⟨divided, parts.map fun part => { todo := part }⟩ b := by
  have keys : (Crew.pending ⟨divided, parts.map fun part => { todo := part }⟩).Perm (groups.map Prod.fst) := by
    have flat : Crew.pending ⟨divided, parts.map fun part => { todo := part }⟩ = parts.flatten.map Prod.fst := by
      rw [Crew.pending, List.flatMap_map, List.map_flatten]
      rfl
    rw [flat]
    exact dealt.map Prod.fst
  constructor
  case sane =>
    intro w mem
    obtain ⟨part, -, rfl⟩ := List.mem_map.1 mem
    exact ⟨rfl, rfl⟩
  case todo =>
    intro w mem group own
    obtain ⟨part, member, rfl⟩ := List.mem_map.1 mem
    exact dealt.subset (List.mem_flatten_of_mem member own)
  case ready =>
    intro w mem r ready
    obtain ⟨part, -, rfl⟩ := List.mem_map.1 mem
    cases ready
  case nodup => exact keys.nodup_iff.2 nodup
  case pending => exact fun key _ => same key
  case settled =>
    intro key settled
    rw [get?_afterPhase_of_not_mem fun mem => settled (keys.mem_iff.2 mem)]
    exact same key

theorem ofGroups (workers : Nat) (same : ∀ key, b.get? key = before.get? key)
    (nodup : (groups.map Prod.fst).Nodup) :
    AtWork stage phase before groups (.ofGroups workers groups) b := by
  rw [Crew.ofGroups]
  split
  · exact ofParts true (flatten_partitions_perm workers groups) same nodup
  · exact @ofParts _ _ _ _ _ false [groups] (List.Perm.of_eq (by simp)) same nodup

/-- When a worker settles its next key and leaves other buckets alone, the crew is still at work. -/
theorem settle {divided : Bool} {front back : List Worker} {w w' : Worker}
    (work : AtWork stage phase before groups ⟨divided, front ++ w :: back⟩ b) {key : Key}
    (drops : w.pending = key :: w'.pending) (sane : w'.Sane) (todo : w'.todo ⊆ w.todo)
    (ready : w'.ready = none) (others : ∀ other, other ≠ key → b'.get? other = b.get? other)
    (own : b'.get? key = (afterPhase stage phase before groups).get? key) :
    AtWork stage phase before groups ⟨divided, front ++ w' :: back⟩ b' := by
  have keys : (Crew.pending ⟨divided, front ++ w :: back⟩).Perm
      (key :: Crew.pending ⟨divided, front ++ w' :: back⟩) := by
    simp only [Crew.pending, List.flatMap_append, List.flatMap_cons, drops, List.cons_append]
    exact List.perm_middle
  have nodup := keys.nodup_iff.1 work.nodup
  obtain ⟨fresh, nodup⟩ := List.nodup_cons.1 nodup
  refine ⟨forall_mem_middle work.sane sane, ?_, ?_, nodup, fun other mem => ?_, fun other settled => ?_⟩
  · exact forall_mem_middle work.todo fun group mem =>
      work.todo w (List.mem_append_right _ List.mem_cons_self) group (todo mem)
  · refine forall_mem_middle work.ready fun r found => ?_
    rw [ready] at found
    cases found
  · rw [others other fun same => fresh (same ▸ mem)]
    exact work.pending other (keys.mem_iff.2 (List.mem_cons_of_mem _ mem))
  · by_cases same : other = key
    · rw [same]
      exact own
    · rw [others other same]
      refine work.settled other fun mem => ?_
      rcases List.mem_cons.1 (keys.mem_iff.1 mem) with here | later
      · exact same here
      · exact settled later

/-- A call of a worker keeps the crew at work. -/
theorem turn {site : Site} {divided : Bool} {front back : List Worker} {w w' : Worker} {s s' : Store}
    (nodup : (groups.map Prod.fst).Nodup) (open_ : site.scope < s.scopes.length)
    (turn : Worker.Turn site phase s w s' w')
    (work : AtWork site.stage phase before groups ⟨divided, front ++ w :: back⟩ (s.buckets site.scope)) :
    AtWork site.stage phase before groups ⟨divided, front ++ w' :: back⟩ (s'.buckets site.scope) := by
  have here : w ∈ front ++ w :: back := List.mem_append_right _ List.mem_cons_self
  have pending : ∀ key ∈ w.pending, key ∈ Crew.pending ⟨divided, front ++ w :: back⟩ :=
    fun key mem => List.mem_flatMap.2 ⟨w, here, mem⟩
  have sane := turn.sane (work.sane w here)
  cases turn with
  | rests => exact work
  | @skips todo group progress kept =>
    have next := pending group.1 List.mem_cons_self
    have mem := work.todo _ here group List.mem_cons_self
    rw [work.pending _ next] at kept
    refine work.settle rfl sane (List.subset_cons_self _ _) rfl (fun _ _ => rfl) ?_
    rw [get?_afterPhase_of_revise?_none nodup mem kept]
    exact work.pending _ next
  | @writes todo progress r =>
    obtain ⟨group, mem, made⟩ := work.ready _ here r rfl
    have same := (revise?_keeps made).1
    refine work.settle rfl sane (List.Subset.refl _) rfl (fun other apart => ?_) ?_
    · rw [s.buckets_set_self open_, SortedMap.get?_insert, if_neg apart]
    · rw [s.buckets_set_self open_, SortedMap.get?_insert, if_pos rfl, same]
      exact (get?_afterPhase_of_revise? nodup mem made).symm
  | @plans todo group progress r made =>
    have next := pending group.1 List.mem_cons_self
    have mem := work.todo _ here group List.mem_cons_self
    rw [work.pending _ next] at made
    -- The key stays pending, now as that of a revision.
    have keys : Crew.pending ⟨divided, front ++ ⟨todo, some r, progress, false⟩ :: back⟩ =
        Crew.pending ⟨divided, front ++ ⟨group :: todo, none, progress, false⟩ :: back⟩ := by
      simp only [Crew.pending, List.flatMap_append, List.flatMap_cons, Worker.pending, Option.toList_some,
        Option.toList_none, List.map_cons, List.map_nil, (revise?_keeps made).1]
      rfl
    refine ⟨forall_mem_middle work.sane sane, forall_mem_middle work.todo ?_, forall_mem_middle work.ready ?_,
      keys ▸ work.nodup, keys ▸ work.pending, keys ▸ work.settled⟩
    · exact fun other member => work.todo _ here other (List.mem_cons_of_mem _ member)
    · intro r' found
      cases found
      exact ⟨group, mem, made⟩

/-- A revision that is about to be written tells what is stored. -/
theorem old_eq (work : AtWork stage phase before groups crew b) {w : Worker} (mem : w ∈ crew.workers)
    {r : Revision} (ready : w.ready = some r) : r.old = b.get? r.key := by
  obtain ⟨group, -, made⟩ := work.ready w mem r ready
  obtain ⟨same, old⟩ := revise?_keeps made
  have pending : r.key ∈ crew.pending := List.mem_flatMap.2 ⟨w, mem, by
    rw [Worker.pending, ready]
    exact List.mem_cons_self⟩
  rw [work.pending _ pending, old, same]

/-- A call of the crew keeps it at work. -/
theorem call {site : Site} {plan : FaultPlan} {i : Nat} {s s' : Store} {crew' : Crew}
    (work : AtWork site.stage phase before groups crew (s.buckets site.scope))
    (nodup : (groups.map Prod.fst).Nodup) (open_ : site.scope < s.scopes.length) (spares : plan.Spares site.scope)
    (call : Crew.Call site phase plan i s crew s' crew') :
    s'.scopes.length = s.scopes.length ∧
      AtWork site.stage phase before groups crew' (s'.buckets site.scope) := by
  cases call with
  | nobody absent => exact ⟨rfl, work⟩
  | one divided front back place call =>
    have turn := call.turn spares
    exact ⟨turn.length, work.turn nodup open_ turn⟩

/-- When a crew has ended, nothing went wrong and the phase is done. -/
theorem of_result? (work : AtWork stage phase before groups crew b)
    {ended : Except (Failure Error) Progress} (finished : crew.result? = some ended) :
    (∃ p, ended = .ok p ∧ p.failed = none) ∧
      ∀ key, b.get? key = (afterPhase stage phase before groups).get? key := by
  obtain ⟨divided, workers⟩ := crew
  rw [Crew.result?] at finished
  split at finished
  · cases finished
  next all =>
  have done : Crew.isDone ⟨divided, workers⟩ = true := by simpa using all
  have none : Crew.pending ⟨divided, workers⟩ = [] :=
    List.flatMap_eq_nil_iff.2 fun w mem =>
      Worker.pending_of_isDone (work.sane w mem) (List.all_eq_true.1 done w mem)
  refine ⟨?_, fun key => work.settled key (by rw [none]; exact List.not_mem_nil)⟩
  split at finished
  · cases finished
    exact ⟨_, rfl, failed_joinAll work.sane⟩
  · cases workers with
    | nil => cases finished
    | cons w rest =>
      cases finished
      have sane := work.sane w List.mem_cons_self
      exact ⟨w.progress, sane.result, sane.2⟩

end AtWork

end Concurrent

end Rollup
