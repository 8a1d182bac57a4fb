import Rollup.Proofs.Ingest.Batches

/-!
# Feeding

An ingestor whose store never fails is fed documents, and commits where it is due or when it is told
to.  At any moment it has made of its store what batches make of it that add first, of which the last
one is still queued (`Fed`).
-/

namespace Rollup

namespace Ingest

/-- What cycles of batches that add first make of a store, which together have these entries. -/
def Collected (root : Site) (behindSites : List Site) (start : Store) (all : Queues) (s : Store) : Prop :=
  ∃ batches, Batched root behindSites start batches s ∧ AddsFirst batches ∧ pool batches = all

end Ingest

namespace Ingestor

open Ingest

theorem tallies_of_collected {verbs : List Verb} {root : Site} {behindSites : List Site} {s s' : Store} {all : Queues}
    (collected : Collected root behindSites s all s') (standing : Standing verbs root behindSites {} s)
    (empty : s.buckets root.scope = .empty) (queued : ∀ phase, ∀ e ∈ all.entries phase, Queued verbs root.stage e)
    (few : all.size < 2 ^ 51) : Tallies verbs root behindSites all s' := by
  obtain ⟨batches, batched, first, rfl⟩ := collected
  exact tallies_of_batched batched first standing empty queued few

/-- An ingestor to which these entries were given, of which some are still queued. -/
structure Fed (root : Site) (behindSites : List Site) (start : Store) (all q : Queues) (t : Session) : Prop where
  sites : t.1.sites = root :: behindSites
  queues : t.1.queues = q :: idle behindSites
  plan : t.2.plan = .never
  placed : Placed (root :: behindSites) t.2.store
  batched : ∃ batches, Batched root behindSites start batches t.2.store ∧ AddsFirst (batches ++ [q]) ∧
    pool (batches ++ [q]) = all

theorem filterMap_cons_eq {α β : Type} (f : α → Option β) (x : α) (rest : List α) :
    (x :: rest).filterMap f = (f x).toList ++ rest.filterMap f := by
  rw [List.filterMap_cons]
  cases f x <;> rfl

namespace Fed

variable {root : Site} {behindSites : List Site} {start : Store} {all q : Queues} {t : Session}

/-- When nothing is queued, the batches have all entries. -/
theorem collected (fed : Fed root behindSites start all {} t) : Collected root behindSites start all t.2.store := by
  obtain ⟨batches, batched, first, whole⟩ := fed.batched
  refine ⟨batches, batched, first.split.1, ?_⟩
  rw [← whole, pool_append]
  simp

/-- A commit works off what is queued. -/
theorem commit (fed : Fed root behindSites start all q t) :
    ∃ t', Ingestor.commit.run t.1 t.2 = (.ok (), t') ∧ Fed root behindSites start all {} t' := by
  obtain ⟨i, w⟩ := t
  obtain ⟨sites, queues, never, placed, batches, batched, first, whole⟩ := fed
  have ready : Ready (root :: behindSites) w := ⟨never ▸ FaultPlan.never_rootOnly.mild,
    fun site _ => never ▸ FaultPlan.never_spares _, placed.open_⟩
  obtain ⟨qs', w', ran, plan, settled⟩ :=
    settles i.config.commitWorkers (root :: behindSites) (q :: idle behindSites) w (by simp [idle]) ready
  obtain rfl := settled.eq_idle
  refine ⟨({ i with queues := idle (root :: behindSites) }, w'), ?_, sites, rfl, plan.trans never,
    placed.of_length settled.sameTree.length_scopes, batches ++ [q], batched.next settled, first.retracts rfl, ?_⟩
  · rw [run_commit_eq, sites, queues, ran]
  · rw [pool_append, whole]
    simp

/-- The entry of a document is queued, and committed where that is due. -/
theorem push {ε : Type} (fed : Fed root behindSites start all q t) (phase : Phase) (doc : Document)
    (first : ∀ batches, AddsFirst (batches ++ [q]) → pool (batches ++ [q]) = all →
      AddsFirst (batches ++ [(root.stage.map? doc).elim q (q.push · phase)])) :
    ∃ q' t', (Ingestor.push phase doc : Action ε Ingestor Unit).run t.1 t.2 = (.ok (), t') ∧
      Fed root behindSites start ((root.stage.map? doc).elim all (all.push · phase)) q' t' ∧
      (q' = {} ∨ q' = (root.stage.map? doc).elim q (q.push · phase)) := by
  obtain ⟨i, w, same, plan, store, ran⟩ := run_enqueueRoot (ε := ε) fed.sites fed.queues phase doc t.2
  have queued : Fed root behindSites start ((root.stage.map? doc).elim all (all.push · phase))
      ((root.stage.map? doc).elim q (q.push · phase)) (i, w) := by
    obtain ⟨batches, batched, order, whole⟩ := fed.batched
    refine ⟨same ▸ fed.sites, same ▸ rfl, plan.trans fed.plan, store ▸ fed.placed, batches, store ▸ batched,
      first batches order whole, ?_⟩
    rw [← whole]
    cases root.stage.map? doc with
    | none => rfl
    | some entry => cases phase <;> simp [pool_append, Queues.push]
  obtain ⟨t', committed, fed'⟩ := queued.commit
  rw [Ingestor.push, Action.run_bind, ran]
  cases made : root.stage.map? doc with
  | none =>
    rw [made] at queued
    exact ⟨_, (i, w), rfl, queued, .inr rfl⟩
  | some entry =>
    rw [made] at queued fed'
    simp only [Option.map_some, Action.run_bind, Action.run_getLocal]
    split
    · refine ⟨{}, t', ?_, fed', .inl rfl⟩
      rw [commitInBackground, Action.run_bind, Action.run_attempt, committed]
      rfl
    · exact ⟨_, (i, w), rfl, queued, .inr rfl⟩

/-- A document is added while none was retracted. -/
theorem add {ε : Type} (fed : Fed root behindSites start all q t) (unretracted : all.retractions = [])
    (doc : Document) :
    ∃ q' t', (Ingestor.ingest doc : Action ε Ingestor Unit).run t.1 t.2 = (.ok (), t') ∧
      Fed root behindSites start ⟨all.additions ++ (root.stage.map? doc).toList, all.retractions⟩ q' t' := by
  obtain ⟨q', t', ran, fed', -⟩ := fed.push (ε := ε) .add doc fun batches _ whole => by
    have none : ∀ batch ∈ batches ++ [q], batch.retractions = [] := by
      apply List.flatMap_eq_nil_iff.1
      exact (congrArg Queues.retractions whole).trans unretracted
    refine .adds fun batch mem => ?_
    rcases List.mem_append.1 mem with earlier | last
    · exact none batch (List.mem_append_left _ earlier)
    · rw [List.mem_singleton.1 last]
      have here := none q (by simp)
      cases root.stage.map? doc <;> exact here
  refine ⟨q', t', ran, ?_⟩
  cases made : root.stage.map? doc with
  | none =>
    rw [made] at fed'
    rwa [Option.toList_none, List.append_nil]
  | some entry =>
    rw [made] at fed'
    exact fed'

/-- A document is retracted while none waits to be added. -/
theorem retract {ε : Type} (fed : Fed root behindSites start all q t) (unadded : q.additions = []) (doc : Document) :
    ∃ q' t', (Ingestor.uningest doc : Action ε Ingestor Unit).run t.1 t.2 = (.ok (), t') ∧
      Fed root behindSites start ⟨all.additions, all.retractions ++ (root.stage.map? doc).toList⟩ q' t' ∧
      q'.additions = [] := by
  have unadded' : ((root.stage.map? doc).elim q (q.push · .retract)).additions = [] := by
    cases root.stage.map? doc <;> exact unadded
  obtain ⟨q', t', ran, fed', kept⟩ := fed.push (ε := ε) .retract doc fun batches order _ =>
    .retracts order.split.1 unadded'
  refine ⟨q', t', ran, ?_, ?_⟩
  · cases made : root.stage.map? doc with
    | none =>
      rw [made] at fed'
      rwa [Option.toList_none, List.append_nil]
    | some entry =>
      rw [made] at fed'
      exact fed'
  · rcases kept with rfl | rfl
    · rfl
    · exact unadded'

theorem ingestAll {ε : Type} (fed : Fed root behindSites start all q t) (unretracted : all.retractions = [])
    (docs : List Document) :
    ∃ q' t', (Ingestor.ingestAll docs : Action ε Ingestor Unit).run t.1 t.2 = (.ok (), t') ∧
      Fed root behindSites start ⟨all.additions ++ docs.filterMap root.stage.map?, all.retractions⟩ q' t' := by
  induction docs generalizing all q t with
  | nil =>
    refine ⟨q, t, rfl, ?_⟩
    rwa [List.filterMap_nil, List.append_nil]
  | cons doc rest ih =>
    obtain ⟨q₁, t₁, first, fed₁⟩ := fed.add (ε := ε) unretracted doc
    obtain ⟨q', t', later, fed'⟩ := ih fed₁ unretracted
    refine ⟨q', t', ?_, ?_⟩
    · rw [Ingestor.ingestAll, List.forM_eq_forM, List.forM_cons, Action.run_bind, first]
      exact later
    · rw [List.append_assoc] at fed'
      rwa [filterMap_cons_eq]

theorem uningestAll {ε : Type} (fed : Fed root behindSites start all q t) (unadded : q.additions = [])
    (docs : List Document) :
    ∃ q' t', (Ingestor.uningestAll docs : Action ε Ingestor Unit).run t.1 t.2 = (.ok (), t') ∧
      Fed root behindSites start ⟨all.additions, all.retractions ++ docs.filterMap root.stage.map?⟩ q' t' := by
  induction docs generalizing all q t with
  | nil =>
    refine ⟨q, t, rfl, ?_⟩
    rwa [List.filterMap_nil, List.append_nil]
  | cons doc rest ih =>
    obtain ⟨q₁, t₁, first, fed₁, unadded₁⟩ := fed.retract (ε := ε) unadded doc
    obtain ⟨q', t', later, fed'⟩ := ih fed₁ unadded₁
    refine ⟨q', t', ?_, ?_⟩
    · rw [Ingestor.uningestAll, List.forM_eq_forM, List.forM_cons, Action.run_bind, first]
      exact later
    · rw [List.append_assoc] at fed'
      rwa [filterMap_cons_eq]

end Fed

end Ingestor

end Rollup
