import Rollup.Proofs.Ingest.Parallel
import Rollup.Proofs.Ingest.Sessions
import Rollup.Proofs.Store.Tree

/-!
# Footprints

What a computation may do to the world is told by a relation between the world before and the world
after, whatever the store refuses and however the computation ends (`Action.Takes`).  Relations that
composition keeps are carried from single accesses through a whole commit (`takes_commit`), so an
ingestor changes nothing but the entries of its own scopes even where accesses fail
(`Ingestor.run_push_confined`).
-/

namespace Rollup

open Ingest

/-- A relation that counting calls and reporting events keep, and that goes on from world to world. -/
structure World.Path (R : World → World → Prop) : Prop where
  quiet : ∀ {w v : World}, v.plan = w.plan → v.store = w.store → R w v
  trans : ∀ {w v u : World}, R w v → R v u → R w u

/-- Writes in a scope keep a relation. -/
def World.Writes (R : World → World → Prop) (scope : ScopeId) : Prop :=
  ∀ {w v : World} (key : Key) (doc : Option Document), v.plan = w.plan → v.store = w.store.set scope key doc → R w v

theorem Frame.path (mine : List ScopeId) : World.Path (Frame mine) := ⟨Frame.of_eq, Frame.trans⟩

theorem Frame.writes {mine : List ScopeId} {scope : ScopeId} (own : scope ∈ mine) :
    World.Writes (Frame mine) scope := fun key doc => Frame.set own key doc

/-! ## Computations -/

namespace Action

variable {ε δ σ τ α β : Type}

/-- However a computation ends, it takes the world where the relation says. -/
def Takes (act : Action ε σ α) (R : World → World → Prop) : Prop := ∀ l w, R w (act.run l w).2.2

variable {R : World → World → Prop} {act : Action ε σ α}

theorem Takes.attempt (takes : act.Takes R) : (attempt act : Action δ σ _).Takes R := fun l w => takes l w

theorem Takes.zoom {act : Action ε τ α} (takes : act.Takes R) (view : σ → τ) (update : τ → σ → σ) :
    (act.zoom view update).Takes R := fun l w => takes (view l) w

variable (path : World.Path R)

include path

theorem takes_pure (x : α) : (pure x : Action ε σ α).Takes R := fun _ _ => path.quiet rfl rfl

theorem takes_fail (f : Failure ε) : (fail f : Action ε σ α).Takes R := fun _ _ => path.quiet rfl rfl

theorem takes_getLocal : (getLocal : Action ε σ σ).Takes R := fun _ _ => path.quiet rfl rfl

theorem takes_getWorld : (getWorld : Action ε σ World).Takes R := fun _ _ => path.quiet rfl rfl

theorem takes_modifyLocal (f : σ → σ) : (modifyLocal f : Action ε σ Unit).Takes R := fun _ _ => path.quiet rfl rfl

theorem takes_record (e : Event) : (record e : Action ε σ Unit).Takes R := fun _ _ => path.quiet rfl rfl

theorem Takes.bind {next : α → Action ε σ β} (first : act.Takes R) (later : ∀ x, (next x).Takes R) :
    (act >>= next).Takes R := by
  intro l w
  have begun := first l w
  rw [run_bind]
  revert begun
  rcases act.run l w with ⟨f | x, m, v⟩ <;> intro begun
  · exact begun
  · exact path.trans begun (later x m v)

theorem takes_call (kind : CallKind) (scope : ScopeId) (key? : Option Key) :
    (Access.call kind scope key? : Action Error σ Unit).Takes R := by
  intro l w
  rcases run_call kind scope key? l w with ⟨f, -, ran⟩ | ⟨-, ran⟩ <;> rw [ran] <;> exact path.quiet rfl rfl

theorem takes_get? (scope : ScopeId) (key : Key) : (Access.get? scope key : Action Error σ _).Takes R :=
  (takes_call path .get scope (some key)).bind path fun _ => (takes_getWorld path).bind path fun _ => takes_pure path _

theorem takes_set {scope : ScopeId} (writes : World.Writes R scope) (key : Key) (doc : Option Document) :
    (Access.set scope key doc : Action Error σ Unit).Takes R :=
  (takes_call path .set scope (some key)).bind path fun _ _ _ => writes key doc rfl rfl

end Action

/-! ## Commits -/

namespace Ingest

open Rollup.Action

variable {ε σ : Type} {R : World → World → Prop} (path : World.Path R)

include path

section Site

variable {site : Site} (writes : World.Writes R site.scope)

theorem takes_plan? (which : Phase) (group : Group) : (plan? site which group : Action Error σ _).Takes R := by
  obtain ⟨key, docs⟩ := group
  cases which with
  | retract =>
    refine (takes_get? path site.scope key).bind path fun stored => ?_
    cases stored with
    | none => exact (takes_record path _).bind path fun _ => takes_pure path _
    | some stored => exact takes_pure path _
  | add =>
    simp only [plan?]
    cases site.stage.reduce? docs with
    | none => exact takes_pure path _
    | some candidate =>
      refine (takes_get? path site.scope key).bind path fun stored => ?_
      cases stored <;> exact takes_pure path _

include writes

theorem takes_processGroup (which : Phase) (group : Group) :
    (processGroup site which group : Action Error σ _).Takes R := by
  refine (takes_plan? path which group).bind path fun planned => ?_
  cases planned with
  | none => exact takes_pure path _
  | some r =>
    have written : (write site r : Action Error σ Unit).Takes R :=
      (takes_set path writes r.key (some r.new)).bind path fun _ => takes_record path _
    exact written.bind path fun _ => takes_pure path _

theorem takes_processAll (which : Phase) (groups : List Group) (p : Progress) :
    (processAll site which groups p : Action Error σ Progress).Takes R := by
  induction groups generalizing p with
  | nil => exact takes_pure path p
  | cons group rest ih =>
    refine (takes_processGroup path writes which group).attempt.bind path fun ended => ?_
    rcases ended with (e | _) | r
    · exact ih _
    · exact takes_fail path _
    · exact ih _

theorem takes_processWorkers (which : Phase) (lists : List (List Group)) (p : Progress) :
    (processWorkers site which lists p : Action Error σ Progress).Takes R := by
  induction lists generalizing p with
  | nil => exact takes_pure path p
  | cons groups rest ih =>
    exact (takes_processAll path writes which groups {}).attempt.bind path fun ended => ih _

theorem takes_process (workers : Nat) (which : Phase) (groups : List Group) :
    (process workers site which groups : Action Error σ Progress).Takes R := by
  rw [process]
  split
  · exact takes_processWorkers path writes which _ {}
  · exact takes_processAll path writes which groups {}

end Site

theorem takes_enqueue (stage : Stage) (which : Phase) (doc : Document) :
    (enqueue stage which doc : Action ε Queues Unit).Takes R := by
  rw [enqueue]
  cases stage.map? doc with
  | none => exact takes_record path _
  | some entry => exact (takes_modifyLocal path _).bind path fun _ => takes_record path _

theorem takes_drain (which : Phase) : (drain which : Action ε Queues _).Takes R :=
  (takes_getLocal path).bind path fun _ => (takes_modifyLocal path _).bind path fun _ => takes_pure path _

theorem takes_forwardAll (next : Stage) (rs : List Revision) : (forwardAll next rs : Action ε Queues Unit).Takes R := by
  induction rs with
  | nil => exact takes_pure path ()
  | cons r rest ih =>
    have first : (forwardRevision next r : Action ε Queues Unit).Takes R := by
      rw [forwardRevision]
      cases r.old with
      | none => exact (takes_pure path ()).bind path fun _ => takes_enqueue path next .add _
      | some old => exact (takes_enqueue path next .retract _).bind path fun _ => takes_enqueue path next .add _
    exact first.bind path fun _ => ih

theorem takes_forward (behindSites : List Site) (rs : List Revision) :
    (forward behindSites rs : Action ε (List Queues) Unit).Takes R := by
  cases behindSites with
  | nil => exact takes_pure path ()
  | cons next _ =>
    exact (((takes_forwardAll path next.stage rs).zoom _ _).zoom _ _).bind path fun _ => takes_record path _

section Phases

variable {workers : Nat} {site : Site} (writes : World.Writes R site.scope) (behindSites : List Site)
  {commitBehind : Action Error (List Queues) Unit} (later : commitBehind.Takes R)

include later

theorem takes_finishPhase (p : Progress) : (finishPhase behindSites commitBehind p).Takes R := by
  refine (takes_forward path behindSites p.revisions).bind path fun _ => ?_
  cases p.failed with
  | none => exact takes_pure path _
  | some e =>
    have settled : (settle commitBehind : Action Error (List Queues) Unit).Takes R := by
      refine later.attempt.bind path fun ended => ?_
      rcases ended with (e | _) | x
      · exact takes_pure path ()
      · exact takes_fail path _
      · exact takes_pure path ()
    exact settled.bind path fun _ => takes_fail path _

include writes

theorem takes_phase (which : Phase) : (phase workers site behindSites commitBehind which).Takes R := by
  refine ((takes_drain path which).zoom _ _).bind path fun entries => ?_
  split
  · exact takes_pure path 0
  · exact (takes_process path writes workers which _).bind path (takes_finishPhase path behindSites later)

theorem takes_phases : (phases workers site behindSites commitBehind).Takes R :=
  (takes_phase path writes behindSites later .retract).bind path fun _ =>
    (takes_phase path writes behindSites later .add).bind path fun _ =>
      (takes_call path .commit site.scope none).bind path fun _ => later.bind path fun _ => takes_pure path _

end Phases

/-- A relation that writes in the scopes of its sites keep is where a commit takes the world. -/
theorem takes_commit (workers : Nat) {sites : List Site} (writes : ∀ site ∈ sites, World.Writes R site.scope) :
    (commit workers sites).Takes R := by
  induction sites with
  | nil => exact takes_pure path ()
  | cons site behindSites ih =>
    have later := (ih fun other mem => writes other (List.mem_cons_of_mem _ mem)).zoom List.tail
      fun rest qs => qs.headD {} :: rest
    refine (takes_record path _).bind path fun _ => ?_
    refine (takes_phases path (writes site List.mem_cons_self) behindSites later).attempt.bind path fun ended => ?_
    rcases ended with (e | _) | n
    · exact (takes_record path _).bind path fun _ => takes_fail path _
    · exact takes_fail path _
    · exact takes_record path _

end Ingest

/-! ## Ingestors -/

namespace Ingestor

open Rollup.Action

variable {ε : Type} (i : Ingestor) (w : World)

/-- Whatever fails, a commit leaves an ingestor in its scopes and changes nothing outside of them. -/
theorem run_commit_confined : ∃ r j v, Ingestor.commit.run i w = (r, j, v) ∧ i.Later j ∧
    Frame (i.sites.map Site.scope) w v := by
  have taken := takes_commit (Frame.path (i.sites.map Site.scope)) i.config.commitWorkers
    (fun site mem => Frame.writes (List.mem_map_of_mem mem)) i.queues w
  rw [run_commit_eq]
  exact ⟨_, _, _, rfl, ⟨rfl, rfl⟩, taken⟩

theorem run_commitInBackground_confined :
    ∃ j v, (commitInBackground : Action ε Ingestor Unit).run i w = (.ok (), j, v) ∧ i.Later j ∧
      Frame (i.sites.map Site.scope) w v := by
  obtain ⟨r, j, v, ran, later, frame⟩ := run_commit_confined i w
  simp only [commitInBackground, Action.run_bind, Action.run_attempt, ran]
  rcases r with (e | _) | x
  · exact ⟨j, v, rfl, later, frame⟩
  · exact ⟨_, v, rfl, ⟨later.sites, later.config⟩, frame⟩
  · exact ⟨j, v, rfl, later, frame⟩

theorem run_enqueue_confined (which : Phase) (doc : Document) :
    ∃ r j v, (Ingestor.enqueue which doc : Action ε Ingestor (Option Nat)).run i w = (.ok r, j, v) ∧ i.Later j ∧
      v.plan = w.plan ∧ v.store = w.store := by
  rw [Ingestor.enqueue, Action.run_bind, Action.run_getLocal]
  dsimp only
  cases i.rootStage? with
  | none => exact ⟨none, i, w, rfl, .refl i, rfl, rfl⟩
  | some stage =>
    obtain ⟨v, plan, store, queued⟩ := run_enqueue (ε := ε) stage which doc (i.queues.headD {}) w
    simp only [Action.run_bind, onQueues, here, Action.run_zoom, queued, Action.run_getLocal, Action.run_pure]
    exact ⟨_, _, v, rfl, ⟨rfl, rfl⟩, plan, store⟩

/-- Whatever fails, a document is queued, and an ingestor stays in its scopes and changes nothing outside of
them. -/
theorem run_push_confined (which : Phase) (doc : Document) :
    ∃ j v, (Ingestor.push which doc : Action ε Ingestor Unit).run i w = (.ok (), j, v) ∧ i.Later j ∧
      Frame (i.sites.map Site.scope) w v := by
  obtain ⟨r, j, v, queued, later, plan, store⟩ := run_enqueue_confined (ε := ε) i w which doc
  have frame : Frame (i.sites.map Site.scope) w v := .of_eq plan store
  rw [Ingestor.push, Action.run_bind, queued]
  cases r with
  | none => exact ⟨j, v, rfl, later, frame⟩
  | some n =>
    simp only [Action.run_bind, Action.run_getLocal]
    split
    · obtain ⟨k, u, ran, later', frame'⟩ := run_commitInBackground_confined (ε := ε) j v
      rw [later.sites] at frame'
      exact ⟨k, u, ran, later.trans later', frame.trans frame'⟩
    · exact ⟨j, v, rfl, later, frame⟩

end Ingestor

end Rollup
