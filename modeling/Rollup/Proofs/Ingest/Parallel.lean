import Rollup.Ingest.Ingestor
import Rollup.Proofs.Ingest.Links

/-!
# Ingestion in two stores

What an ingestor does depends on nothing in a store but the entries of its own scopes.  Two
computations are `Parallel` if, run in stores whose corresponding scopes have the same entries
(`Twins`), they end alike and leave such stores again; apart from these entries neither changes
anything (`Frame`).  A commit cycle and itself in other scopes are parallel (`Parallel.commit`).
-/

namespace Rollup

/-! ## Worlds -/

/-- What reads and writes of the entries of some scopes leave alone. -/
structure Frame (mine : List ScopeId) (w v : World) : Prop where
  plan : v.plan = w.plan
  tree : Store.SameTree w.store v.store
  appended : ∀ id, (v.store.scope id).appended = (w.store.scope id).appended
  buckets : ∀ id, id ∉ mine → v.store.buckets id = w.store.buckets id

namespace Frame

variable {mine : List ScopeId} {w v u : World}

theorem of_eq (plan : v.plan = w.plan) (store : v.store = w.store) : Frame mine w v where
  plan := plan
  tree := store ▸ .refl _
  appended _ := by rw [store]
  buckets _ _ := by rw [store]

theorem trans (first : Frame mine w v) (later : Frame mine v u) : Frame mine w u where
  plan := later.plan.trans first.plan
  tree := first.tree.trans later.tree
  appended id := (later.appended id).trans (first.appended id)
  buckets id other := (later.buckets id other).trans (first.buckets id other)

theorem set {id : ScopeId} (own : id ∈ mine) (key : Key) (doc : Option Document)
    (plan : v.plan = w.plan) (store : v.store = w.store.set id key doc) : Frame mine w v where
  plan := plan
  tree := store ▸ w.store.sameTree_set id key doc
  appended other := by
    rw [store]
    exact w.store.appended_set id key doc other
  buckets other apart := by
    rw [store]
    exact w.store.buckets_set_of_ne (fun same : other = id => apart (same ▸ own)) key doc

end Frame

/-- Two worlds in which no access fails, and some scopes of one with those of the other that have the
same entries. -/
structure Twins (pairs : List (ScopeId × ScopeId)) (w w' : World) : Prop where
  never : w.plan = .never
  never' : w'.plan = .never
  apart : ∀ p ∈ pairs, ∀ p' ∈ pairs, p.1 = p'.1 ↔ p.2 = p'.2
  open_ : ∀ p ∈ pairs, p.1 < w.store.scopes.length
  open_' : ∀ p ∈ pairs, p.2 < w'.store.scopes.length
  same : ∀ p ∈ pairs, w'.store.buckets p.2 = w.store.buckets p.1

/-- Twins that have been moved on together. -/
structure Twins.Moved (pairs : List (ScopeId × ScopeId)) (w w' v v' : World) : Prop where
  twins : Twins pairs v v'
  frame : Frame (pairs.map Prod.fst) w v
  frame' : Frame (pairs.map Prod.snd) w' v'

namespace Twins

variable {pairs : List (ScopeId × ScopeId)} {w w' v v' u u' : World}

theorem of_eq (twins : Twins pairs w w') (plan : v.plan = w.plan) (store : v.store = w.store)
    (plan' : v'.plan = w'.plan) (store' : v'.store = w'.store) : Moved pairs w w' v v' where
  twins := {
    never := plan.trans twins.never
    never' := plan'.trans twins.never'
    apart := twins.apart
    open_ := store ▸ twins.open_
    open_' := store' ▸ twins.open_'
    same := by
      rw [store, store']
      exact twins.same }
  frame := .of_eq plan store
  frame' := .of_eq plan' store'

theorem Moved.trans (first : Moved pairs w w' v v') (later : Moved pairs v v' u u') : Moved pairs w w' u u' where
  twins := later.twins
  frame := first.frame.trans later.frame
  frame' := first.frame'.trans later.frame'

/-- The same write to corresponding scopes leaves them corresponding. -/
theorem set (twins : Twins pairs w w') {p : ScopeId × ScopeId} (mem : p ∈ pairs) (key : Key) (doc : Option Document)
    (plan : v.plan = w.plan) (store : v.store = w.store.set p.1 key doc) (plan' : v'.plan = w'.plan)
    (store' : v'.store = w'.store.set p.2 key doc) : Moved pairs w w' v v' where
  twins := {
    never := plan.trans twins.never
    never' := plan'.trans twins.never'
    apart := twins.apart
    open_ := by
      rw [store, Store.length_set]
      exact twins.open_
    open_' := by
      rw [store', Store.length_set]
      exact twins.open_'
    same := fun other listed => by
      rw [store, store']
      by_cases own : other.1 = p.1
      · have own' : other.2 = p.2 := (twins.apart other listed p mem).1 own
        rw [own, own']
        cases doc with
        | some d =>
          rw [Store.buckets_set_self _ (twins.open_ p mem), Store.buckets_set_self _ (twins.open_' p mem),
            twins.same p mem]
        | none =>
          rw [Store.buckets_erase_self _ (twins.open_ p mem), Store.buckets_erase_self _ (twins.open_' p mem),
            twins.same p mem]
      · have own' : other.2 ≠ p.2 := fun same => own ((twins.apart other listed p mem).2 same)
        rw [Store.buckets_set_of_ne _ own, Store.buckets_set_of_ne _ own', twins.same other listed] }
  frame := .set (List.mem_map_of_mem mem) key doc plan store
  frame' := .set (List.mem_map_of_mem mem) key doc plan' store'

end Twins

/-! ## Computations -/

/-- Run in twins, two computations end alike and move the twins on together. -/
def Parallel {ε σ α : Type} (pairs : List (ScopeId × ScopeId)) (act act' : Action ε σ α) : Prop :=
  ∀ l w w', Twins pairs w w' → ∃ r l' v v', act.run l w = (r, l', v) ∧ act'.run l w' = (r, l', v') ∧
    Twins.Moved pairs w w' v v'

namespace Parallel

open Ingest

variable {ε δ σ τ α β : Type} {pairs : List (ScopeId × ScopeId)} {act act' : Action ε σ α}

/-! ### How they are composed -/

theorem pure (x : α) : Parallel (ε := ε) (σ := σ) pairs (Pure.pure x) (Pure.pure x) :=
  fun l w w' twins => ⟨.ok x, l, w, w', rfl, rfl, twins.of_eq rfl rfl rfl rfl⟩

theorem fail (f : Failure ε) : Parallel (σ := σ) (α := α) pairs (Action.fail f) (Action.fail f) :=
  fun l w w' twins => ⟨.error f, l, w, w', rfl, rfl, twins.of_eq rfl rfl rfl rfl⟩

theorem getLocal : Parallel (ε := ε) (σ := σ) pairs Action.getLocal Action.getLocal :=
  fun l w w' twins => ⟨.ok l, l, w, w', rfl, rfl, twins.of_eq rfl rfl rfl rfl⟩

theorem modifyLocal (f : σ → σ) : Parallel (ε := ε) pairs (Action.modifyLocal f) (Action.modifyLocal f) :=
  fun l w w' twins => ⟨.ok (), f l, w, w', rfl, rfl, twins.of_eq rfl rfl rfl rfl⟩

theorem record (e : Event) : Parallel (ε := ε) (σ := σ) pairs (Action.record e) (Action.record e) :=
  fun l w w' twins => ⟨.ok (), l, w.record e, w'.record e, rfl, rfl, twins.of_eq rfl rfl rfl rfl⟩

theorem bind {next next' : α → Action ε σ β} (first : Parallel pairs act act')
    (later : ∀ x, Parallel pairs (next x) (next' x)) : Parallel pairs (act >>= next) (act' >>= next') := by
  intro l w w' twins
  obtain ⟨r, l₁, v, v', ran, ran', moved⟩ := first l w w' twins
  rw [Action.run_bind, Action.run_bind, ran, ran']
  cases r with
  | error f => exact ⟨.error f, l₁, v, v', rfl, rfl, moved⟩
  | ok x =>
    obtain ⟨r, l₂, u, u', again, again', moved'⟩ := later x l₁ v v' moved.twins
    exact ⟨r, l₂, u, u', again, again', moved.trans moved'⟩

theorem attempt (same : Parallel pairs act act') :
    Parallel pairs (Action.attempt act : Action δ σ _) (Action.attempt act') := by
  intro l w w' twins
  obtain ⟨r, l₁, v, v', ran, ran', moved⟩ := same l w w' twins
  exact ⟨.ok r, l₁, v, v', by rw [Action.run_attempt, ran], by rw [Action.run_attempt, ran'], moved⟩

theorem zoom {view : τ → σ} {update : σ → τ → τ} (same : Parallel pairs act act') :
    Parallel pairs (Action.zoom view update act) (Action.zoom view update act') := by
  intro l w w' twins
  obtain ⟨r, l₁, v, v', ran, ran', moved⟩ := same (view l) w w' twins
  exact ⟨r, update l₁ l, v, v', by rw [Action.run_zoom, ran], by rw [Action.run_zoom, ran'], moved⟩

/-! ### Access -/

section Access

variable {p : ScopeId × ScopeId} (mem : p ∈ pairs)

theorem call (kind : CallKind) (scope scope' : ScopeId) (key? key?' : Option Key) :
    Parallel (σ := σ) pairs (Access.call kind scope key?) (Access.call kind scope' key?') := by
  intro l w w' twins
  refine ⟨.ok (), l, { w with calls := w.calls + 1 }, { w' with calls := w'.calls + 1 }, ?_, ?_,
    twins.of_eq rfl rfl rfl rfl⟩
  · simp only [Access.call, Action.run_bind, Action.run_getWorld, Action.run_modifyWorld, twins.never,
      FaultPlan.never, Action.run_pure]
  · simp only [Access.call, Action.run_bind, Action.run_getWorld, Action.run_modifyWorld, twins.never',
      FaultPlan.never, Action.run_pure]

/-- Reading the entries of corresponding scopes. -/
theorem read (f : SortedMap Key Document → α) (mem : p ∈ pairs) :
    Parallel (ε := ε) (σ := σ) pairs (do return f ((← Action.getWorld).store.buckets p.1))
      (do return f ((← Action.getWorld).store.buckets p.2)) := by
  intro l w w' twins
  refine ⟨.ok (f (w.store.buckets p.1)), l, w, w', rfl, ?_, twins.of_eq rfl rfl rfl rfl⟩
  rw [← twins.same p mem]
  rfl

include mem

theorem get? (key : Key) : Parallel (σ := σ) pairs (Access.get? p.1 key) (Access.get? p.2 key) :=
  (call .get p.1 p.2 _ _).bind fun _ => read (·.get? key) mem

theorem set (key : Key) (doc : Option Document) :
    Parallel (σ := σ) pairs (Access.set p.1 key doc) (Access.set p.2 key doc) := by
  refine (call .set p.1 p.2 _ _).bind fun _ l w w' twins => ?_
  exact ⟨.ok (), l, _, _, rfl, rfl, twins.set mem key doc rfl rfl rfl rfl⟩

end Access

end Parallel

namespace Ingest

/-- A stage in two scopes that stand for each other. -/
structure Site.Twin (pairs : List (ScopeId × ScopeId)) (site site' : Site) : Prop where
  stage : site'.stage = site.stage
  mem : (site.scope, site'.scope) ∈ pairs

end Ingest

namespace Parallel

open Ingest

variable {ε δ σ : Type} {pairs : List (ScopeId × ScopeId)}

section Site

variable {site site' : Site} (twin : site.Twin pairs site') (phase : Phase)

include twin

theorem plan? (group : Group) : Parallel (σ := σ) pairs (plan? site phase group) (plan? site' phase group) := by
  obtain ⟨key, docs⟩ := group
  have found : Parallel (σ := σ) pairs (Access.get? site.scope key) (Access.get? site'.scope key) :=
    Parallel.get? twin.mem key
  cases phase with
  | retract =>
    refine found.bind fun stored => ?_
    rw [twin.stage]
    cases stored with
    | none => exact (record _).bind fun _ => pure _
    | some stored => exact pure _
  | add =>
    simp only [Ingest.plan?, twin.stage]
    cases site.stage.reduce? docs with
    | none => exact pure _
    | some candidate =>
      refine found.bind fun stored => ?_
      cases stored with
      | none => exact pure _
      | some stored => exact pure _

theorem write (r : Revision) : Parallel (σ := σ) pairs (write site r) (write site' r) :=
  (Parallel.set twin.mem r.key (some r.new)).bind fun _ => record _

theorem processGroup (group : Group) :
    Parallel (σ := σ) pairs (processGroup site phase group) (processGroup site' phase group) := by
  refine (Parallel.plan? twin phase group).bind fun planned => ?_
  cases planned with
  | none => exact pure _
  | some r => exact (write twin r).bind fun _ => pure _

theorem processAll (groups : List Group) (p : Progress) :
    Parallel (σ := σ) pairs (processAll site phase groups p) (processAll site' phase groups p) := by
  induction groups generalizing p with
  | nil => exact pure p
  | cons group rest ih =>
    refine (processGroup twin phase group).attempt.bind fun ended => ?_
    match ended with
    | .ok r => exact ih _
    | .error (.error e) => exact ih _
    | .error .crash => exact fail _

theorem processWorkers (shares : List (List Group)) (p : Progress) :
    Parallel (σ := σ) pairs (processWorkers site phase shares p) (processWorkers site' phase shares p) := by
  induction shares generalizing p with
  | nil => exact pure p
  | cons groups rest ih => exact (processAll twin phase groups {}).attempt.bind fun _ => ih _

theorem process (workers : Nat) (groups : List Group) :
    Parallel (σ := σ) pairs (process workers site phase groups) (process workers site' phase groups) := by
  rw [Ingest.process, Ingest.process]
  split
  · exact processWorkers twin phase _ _
  · exact processAll twin phase _ _

end Site

/-! ### Queues -/

theorem here {α : Type} {act act' : Action ε Queues α} (same : Parallel pairs act act') :
    Parallel pairs (here act) (here act') := same.zoom

theorem enqueue (stage : Stage) (phase : Phase) (doc : Document) :
    Parallel (ε := ε) pairs (enqueue stage phase doc) (enqueue stage phase doc) := by
  rw [Ingest.enqueue]
  cases stage.map? doc with
  | none => exact record _
  | some entry => exact (modifyLocal _).bind fun _ => record _

theorem drain (phase : Phase) : Parallel (ε := ε) pairs (drain phase) (drain phase) :=
  getLocal.bind fun _ => (modifyLocal _).bind fun _ => pure _

theorem forwardAll (next : Stage) (revisions : List Revision) :
    Parallel (ε := ε) pairs (forwardAll next revisions) (forwardAll next revisions) := by
  induction revisions with
  | nil => exact pure ()
  | cons r rest ih =>
    refine Parallel.bind ?_ fun _ => ih
    rw [forwardRevision]
    cases r.old with
    | none => exact (pure ()).bind fun _ => enqueue next .add _
    | some old => exact (enqueue next .retract _).bind fun _ => enqueue next .add _

/-! ### Chains -/

section Chain

variable {sites sites' : List Site} (twin : List.Forall₂ (Site.Twin pairs) sites sites')

include twin in
theorem forward (revisions : List Revision) :
    Parallel (ε := ε) pairs (forward sites revisions) (forward sites' revisions) := by
  cases twin with
  | nil => exact pure ()
  | cons head rest =>
    rw [Ingest.forward, Ingest.forward, head.stage]
    exact (forwardAll _ revisions).here.zoom.bind fun _ => record _

theorem settle {act act' : Action ε σ Unit} (same : Parallel pairs act act') :
    Parallel (ε := δ) pairs (settle act) (settle act') := by
  refine same.attempt.bind fun ended => ?_
  match ended with
  | .ok () | .error (.error _) => exact pure ()
  | .error .crash => exact fail _

variable {commitBehind commitBehind' : Action Error (List Queues) Unit}
  (behind : Parallel pairs commitBehind commitBehind')

include twin behind

theorem finishPhase (p : Progress) :
    Parallel pairs (finishPhase sites commitBehind p) (finishPhase sites' commitBehind' p) := by
  refine (forward twin p.revisions).bind fun _ => ?_
  cases p.failed with
  | none => exact pure _
  | some e => exact (settle behind).bind fun _ => fail _

variable {site site' : Site} (head : site.Twin pairs site') (workers : Nat)

include head

theorem phase (which : Phase) :
    Parallel pairs (phase workers site sites commitBehind which) (phase workers site' sites' commitBehind' which) := by
  refine (drain which).zoom.bind fun entries => ?_
  split
  · exact pure _
  · exact (process head which workers _).bind fun p => finishPhase twin behind p

theorem phases :
    Parallel pairs (phases workers site sites commitBehind) (phases workers site' sites' commitBehind') :=
  (phase twin behind head workers .retract).bind fun _ =>
    (phase twin behind head workers .add).bind fun _ =>
      (call .commit site.scope site'.scope none none).bind fun _ => behind.bind fun _ => pure _

end Chain

/-- A commit does the same in scopes that stand for each other. -/
theorem commit {sites sites' : List Site} (twin : List.Forall₂ (Site.Twin pairs) sites sites') (workers : Nat) :
    Parallel pairs (commit workers sites) (commit workers sites') := by
  induction twin with
  | nil => exact pure ()
  | cons head rest ih =>
    refine (record _).bind fun _ => (phases rest ih.zoom head workers).attempt.bind fun ended => ?_
    match ended with
    | .ok touched => exact record _
    | .error (.error e) => exact (record _).bind fun _ => fail _
    | .error .crash => exact fail _

end Parallel

/-! ## Ingestors -/

namespace Ingestor

open Ingest

/-- Two ingestors that are alike but for the scopes of their sites, which stand for each other. -/
structure Twin (pairs : List (ScopeId × ScopeId)) (i i' : Ingestor) : Prop where
  sites : List.Forall₂ (Site.Twin pairs) i.sites i'.sites
  queues : i'.queues = i.queues
  config : i'.config = i.config
  pending : i'.backgroundPending = i.backgroundPending

/-- An ingestor at a later moment. -/
structure Later (i j : Ingestor) : Prop where
  sites : j.sites = i.sites
  config : j.config = i.config

variable {pairs : List (ScopeId × ScopeId)} {i i' : Ingestor} {w w' : World}

theorem Later.refl (i : Ingestor) : i.Later i := ⟨rfl, rfl⟩

theorem Later.trans {j k : Ingestor} (first : i.Later j) (later : j.Later k) : i.Later k :=
  ⟨later.sites.trans first.sites, later.config.trans first.config⟩

/-- Twins that have been moved on together. -/
structure Twin.Moved (pairs : List (ScopeId × ScopeId)) (i i' j j' : Ingestor) (w w' v v' : World) : Prop where
  twin : Twin pairs j j'
  later : i.Later j
  later' : i'.Later j'
  moved : Twins.Moved pairs w w' v v'

variable (twin : Twin pairs i i') (twins : Twins pairs w w')

include twin in
theorem Twin.rootStage?_eq : i'.rootStage? = i.rootStage? := by
  obtain ⟨sites, qs, config, pending⟩ := i
  obtain ⟨sites', qs', config', pending'⟩ := i'
  have same : List.Forall₂ (Site.Twin pairs) sites sites' := twin.sites
  cases same with
  | nil => rfl
  | cons head rest => exact congrArg some head.stage

include twin in
theorem Twin.with_queues (qs : List Queues) : Twin pairs { i with queues := qs } { i' with queues := qs } :=
  ⟨twin.sites, rfl, twin.config, twin.pending⟩

include twin twins

theorem run_onQueues_twin {ε α : Type} {act act' : Action ε (List Queues) α} (same : Parallel pairs act act') :
    ∃ r j j' v v', (onQueues act).run i w = (r, j, v) ∧ (onQueues act').run i' w' = (r, j', v') ∧
      Twin.Moved pairs i i' j j' w w' v v' := by
  obtain ⟨r, qs, v, v', ran, ran', moved⟩ := same i.queues w w' twins
  refine ⟨r, _, _, v, v', by rw [onQueues, Action.run_zoom, ran], by rw [onQueues, Action.run_zoom, twin.queues, ran'],
    twin.with_queues qs, ⟨rfl, rfl⟩, ⟨rfl, rfl⟩, moved⟩

theorem run_commit_twin : ∃ r j j' v v', Ingestor.commit.run i w = (r, j, v) ∧ Ingestor.commit.run i' w' = (r, j', v') ∧
    Twin.Moved pairs i i' j j' w w' v v' := by
  rw [Ingestor.commit, Action.run_bind, Action.run_bind, Action.run_getLocal, Action.run_getLocal]
  simp only [twin.config]
  exact run_onQueues_twin twin twins (Parallel.commit twin.sites _)

theorem run_enqueue_twin {ε : Type} (phase : Phase) (doc : Document) :
    ∃ r j j' v v', (Ingestor.enqueue phase doc : Action ε Ingestor (Option Nat)).run i w = (.ok r, j, v) ∧
      (Ingestor.enqueue phase doc : Action ε Ingestor (Option Nat)).run i' w' = (.ok r, j', v') ∧
      Twin.Moved pairs i i' j j' w w' v v' := by
  rw [Ingestor.enqueue, Action.run_bind, Action.run_bind, Action.run_getLocal, Action.run_getLocal]
  simp only [twin.rootStage?_eq]
  cases i.rootStage? with
  | none => exact ⟨none, i, i', w, w', rfl, rfl, twin, .refl i, .refl i', twins.of_eq rfl rfl rfl rfl⟩
  | some stage =>
    obtain ⟨r, j, j', v, v', ran, ran', moved⟩ :=
      run_onQueues_twin twin twins (Parallel.enqueue (ε := ε) stage phase doc).here
    -- Queueing an entry does not fail.
    obtain ⟨u, -, -, queued⟩ := run_enqueue (ε := ε) stage phase doc (i.queues.headD {}) w
    obtain rfl : r = .ok () := by
      have outcome := congrArg Prod.fst ran
      rw [onQueues, here, Action.run_zoom, Action.run_zoom, queued] at outcome
      exact outcome.symm
    refine ⟨(stage.map? doc).map fun _ => j.queued, j, j', v, v', ?_, ?_, moved⟩
    · simp only [Action.run_bind, ran, Action.run_getLocal, Action.run_pure]
    · simp only [Action.run_bind, ran', Action.run_getLocal, Action.run_pure, Ingestor.queued, moved.twin.queues]

theorem run_commitInBackground_twin {ε : Type} :
    ∃ j j' v v', (commitInBackground : Action ε Ingestor Unit).run i w = (.ok (), j, v) ∧
      (commitInBackground : Action ε Ingestor Unit).run i' w' = (.ok (), j', v') ∧
      Twin.Moved pairs i i' j j' w w' v v' := by
  obtain ⟨r, j, j', v, v', ran, ran', moved⟩ := run_commit_twin twin twins
  simp only [commitInBackground, Action.run_bind, Action.run_attempt, ran, ran']
  match r with
  | .ok () | .error (.error e) => exact ⟨j, j', v, v', rfl, rfl, moved⟩
  | .error .crash =>
    refine ⟨_, _, v, v', rfl, rfl, ?_, ⟨moved.later.sites, moved.later.config⟩,
      ⟨moved.later'.sites, moved.later'.config⟩, moved.moved⟩
    exact ⟨moved.twin.sites, moved.twin.queues, moved.twin.config, rfl⟩

/-- Queueing a document, and committing after it where that is due. -/
theorem run_push_twin {ε : Type} (phase : Phase) (doc : Document) :
    ∃ j j' v v', (Ingestor.push phase doc : Action ε Ingestor Unit).run i w = (.ok (), j, v) ∧
      (Ingestor.push phase doc : Action ε Ingestor Unit).run i' w' = (.ok (), j', v') ∧
      Twin.Moved pairs i i' j j' w w' v v' := by
  obtain ⟨r, j, j', v, v', ran, ran', moved⟩ := run_enqueue_twin (ε := ε) twin twins phase doc
  rw [Ingestor.push, Action.run_bind, Action.run_bind, ran, ran']
  cases r with
  | none => exact ⟨j, j', v, v', rfl, rfl, moved⟩
  | some queued =>
    have due : j'.isDue queued = j.isDue queued := by
      rw [isDue, isDue, moved.twin.config, moved.twin.pending]
    simp only [Action.run_bind, Action.run_getLocal, due]
    split
    · obtain ⟨k, k', u, u', again, again', more⟩ := run_commitInBackground_twin (ε := ε) moved.twin moved.moved.twins
      exact ⟨k, k', u, u', again, again', more.twin, moved.later.trans more.later, moved.later'.trans more.later',
        moved.moved.trans more.moved⟩
    · exact ⟨j, j', v, v', rfl, rfl, moved⟩

end Ingestor

end Rollup
