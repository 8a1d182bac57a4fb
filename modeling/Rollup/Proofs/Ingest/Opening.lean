import Rollup.Proofs.Ingest.Sessions

/-!
# Opening an ingestor

Every stage of a pipeline gets a scope of its own, each behind the one before, and no entries change
(`run_openSites`).  Where no scope has entries, the session that starts so is sound (`opened_at`).
-/

namespace Rollup

open Ingest

namespace Ingestor

/-! ## Scopes -/

variable {σ : Type}

/-- A scope is opened, or the store refuses. -/
theorem run_openChild_cases (scope : ScopeId) (name : Key) (l : σ) (w : World) :
    (∃ f, w.plan.FailsAt scope .child (some name) f ∧
      (Access.openChild scope name).run l w = (.error f, l, { w with calls := w.calls + 1 })) ∨
    (Access.openChild scope name).run l w =
      (.ok (w.store.openChild scope name).1, l,
        { w with calls := w.calls + 1, store := (w.store.openChild scope name).2 }) := by
  rw [Access.openChild, Action.run_bind]
  rcases run_call .child scope (some name) l w with ⟨f, failing, ran⟩ | ⟨-, ran⟩
  · exact .inl ⟨f, ⟨_, _, failing⟩, by rw [ran]⟩
  · exact .inr (by rw [ran]; rfl)

theorem run_openChild (scope : ScopeId) (name : Key) (l : σ) {w : World} (opens : w.plan.Opens) :
    (Access.openChild scope name).run l w =
      (.ok (w.store.openChild scope name).1, l,
        { w with calls := w.calls + 1, store := (w.store.openChild scope name).2 }) :=
  (run_openChild_cases scope name l w).resolve_left fun ⟨f, failing, _⟩ => opens scope (some name) f failing

/-- Every stage gets a scope of its own, behind the one before. -/
theorem run_openSites (chainStore : String) {stages : List Stage} (some_ : stages ≠ []) {scope : ScopeId}
    (l : σ) {w : World} (nested : w.store.Nested) (open_ : scope < w.store.scopes.length) (opens : w.plan.Opens) :
    ∃ site sites w', (openSites chainStore scope stages).run l w = (.ok (site :: sites), l, w') ∧
      site.scope = scope ∧ w'.plan = w.plan ∧ (site :: sites).map Site.stage = stages ∧
      ((site :: sites).map Site.scope).Pairwise (· < ·) ∧
      (∀ other ∈ site :: sites, other.scope < w'.store.scopes.length) ∧
      w.store.scopes.length ≤ w'.store.scopes.length ∧ w'.store.Nested ∧
      ∀ id, w'.store.buckets id = w.store.buckets id := by
  -- The induction is on the stages: the first takes the scope that is given, the others a child of it.
  induction stages generalizing scope w with
  | nil => exact absurd rfl some_
  | cons stage rest ih =>
    cases rest with
    | nil =>
      refine ⟨⟨stage, scope⟩, [], w, rfl, rfl, rfl, rfl, List.pairwise_singleton _ _, ?_, le_refl _, nested, fun _ => rfl⟩
      intro other mem
      rw [List.mem_singleton.1 mem]
      exact open_
    | cons next others =>
      obtain ⟨child, s', opened, behind, open', length, nested', same⟩ :=
        Store.openChild_eq nested open_ (.named chainStore)
      have ran := run_openChild scope (.named chainStore) l opens
      rw [opened] at ran
      obtain ⟨site, sites, w', ran', head, plan, stages, ascend, places, length', nested'', same'⟩ :=
        @ih (List.cons_ne_nil _ _) child { w with calls := w.calls + 1, store := s' } nested' open' opens
      refine ⟨⟨stage, scope⟩, site :: sites, w', ?_, rfl, plan, ?_, ?_, ?_, length.trans length', nested'',
        fun id => (same' id).trans (same id)⟩
      · simp only [openSites, Action.run_bind, ran, ran', Action.run_pure]
      · rw [List.map_cons, stages]
      · refine List.pairwise_cons.2 ⟨fun other mem => ?_, ascend⟩
        rcases List.mem_cons.1 mem with rfl | later
        · exact head ▸ behind
        · exact Nat.lt_trans behind (head ▸ (List.pairwise_cons.1 ascend).1 other later)
      · intro other mem
        rcases List.mem_cons.1 mem with rfl | later
        · exact Nat.lt_of_lt_of_le open_ (length.trans length')
        · exact places other later

/-- Opening the scopes of stages does nothing else. -/
theorem grown_openSites (chainStore : String) (stages : List Stage) (scope : ScopeId) (l : σ) {w : World}
    (opens : w.plan.Opens) :
    Store.Grown (.named chainStore) w.store ((openSites chainStore scope stages).run l w).2.2.store := by
  induction stages generalizing scope w with
  | nil => exact .refl _ _
  | cons stage rest ih =>
    cases rest with
    | nil => exact .refl _ _
    | cons next others =>
      have first := w.store.grown_openChild scope (.named chainStore)
      have later := @ih (w.store.openChild scope (.named chainStore)).1
        { w with calls := w.calls + 1, store := (w.store.openChild scope (.named chainStore)).2 } opens
      have joined := first.trans later
      rw [openSites]
      · simp only [Action.run_bind, run_openChild scope (.named chainStore) l opens]
        split
        · next x l' w' ran =>
          rw [ran] at joined
          exact joined
        · next f rest ran =>
          rw [ran] at joined
          exact joined
      · simp

/-! ## The first session -/

end Ingestor

/-- Only reads and writes of entries in the root scope fail, and they do not crash. -/
def FaultPlan.RootOnly (plan : FaultPlan) : Prop :=
  ∀ n call f, plan n call = some f →
    call.scope = Store.root ∧ (call.kind = .get ∨ call.kind = .set) ∧ ∃ e, f = .error e

namespace FaultPlan.RootOnly

variable {plan : FaultPlan}

theorem mild (faults : plan.RootOnly) : plan.Mild := fun n call f failing => (faults n call f failing).2

theorem spares (faults : plan.RootOnly) {scope : ScopeId} (other : scope ≠ Store.root) : plan.Spares scope := by
  rintro f ⟨n, call, failing, rfl⟩
  exact other (faults n call f failing).1

end FaultPlan.RootOnly

theorem FaultPlan.never_rootOnly : FaultPlan.never.RootOnly := fun _ _ _ failing => by cases failing

theorem FaultPlan.never_spares (scope : ScopeId) : FaultPlan.never.Spares scope := by
  rintro f ⟨n, call, failing, -⟩
  cases failing

namespace Ingestor

theorem linked_of_empty {verbs : List Verb} {s : Store} (empty : ∀ id, s.buckets id = .empty)
    {stage : Stage} {sites : List Site} (chained : Chained verbs (stage :: sites.map Site.stage)) :
    Linked verbs s stage .empty sites := by
  induction sites generalizing stage with
  | nil => trivial
  | cons child rest ih =>
    obtain ⟨⟨route, merges⟩, later⟩ := List.isChain_cons_cons.1 chained
    rw [Linked, empty]
    have domain_empty : domain (SortedMap.empty : Buckets) = ∅ := rfl
    refine ⟨⟨route, merges, fun key' => ?_, fun field _ key' => rfl⟩, fun key d found => ?_, ih later⟩
    · simp [domain_empty]
    · cases found

/-- Where scopes can be opened, an ingestor has one of its own for every stage, and nothing queued. -/
theorem run_openAt_of_opens {scope : ScopeId} (pipeline : Pipeline) {config : Config} (valid : config.validate = .ok ())
    {w : World} (nested : w.store.Nested) (open_ : scope < w.store.scopes.length) (opens : w.plan.Opens) :
    ∃ root behindSites, ∃ t : Session,
      (openAt scope pipeline config : Action Error Unit Ingestor).run () w = (.ok t.1, (), t.2) ∧
      t.1 = { sites := root :: behindSites, queues := {} :: idle behindSites, config } ∧ t.2.plan = w.plan ∧
      (root :: behindSites).map Site.stage = pipeline.stages ∧ root.scope = scope ∧
      Placed (root :: behindSites) t.2.store ∧ ∀ id, t.2.store.buckets id = w.store.buckets id := by
  obtain ⟨root, behindSites, w', ran, head, plan, stages, ascend, places, -, -, same⟩ :=
    @run_openSites Unit config.chainStore pipeline.stages (List.cons_ne_nil _ _) scope () w nested open_ opens
  refine ⟨root, behindSites, ({ sites := root :: behindSites, queues := {} :: idle behindSites, config }, w'), ?_,
    rfl, plan, stages, head, ⟨ascend.imp Nat.ne_of_lt, places⟩, same⟩
  simp only [openAt, Action.run_bind, valid, Except.mapError, Action.ofExcept, Action.run_pure, ran]
  rfl

theorem run_openAt {scope : ScopeId} (pipeline : Pipeline) {config : Config} (valid : config.validate = .ok ())
    {w : World} (nested : w.store.Nested) (open_ : scope < w.store.scopes.length) (mild : w.plan.Mild) :
    ∃ root behindSites, ∃ t : Session,
      (openAt scope pipeline config : Action Error Unit Ingestor).run () w = (.ok t.1, (), t.2) ∧
      t.1 = { sites := root :: behindSites, queues := {} :: idle behindSites, config } ∧ t.2.plan = w.plan ∧
      (root :: behindSites).map Site.stage = pipeline.stages ∧ root.scope = scope ∧
      Placed (root :: behindSites) t.2.store ∧ ∀ id, t.2.store.buckets id = w.store.buckets id :=
  run_openAt_of_opens pipeline valid nested open_ mild.opens

theorem session_unique {ε σ : Type} {act : Action ε Unit σ} {w : World} {t t' : σ × World}
    (ran : act.run () w = (.ok t.1, (), t.2)) (ran' : act.run () w = (.ok t'.1, (), t'.2)) : t = t' := by
  rw [ran] at ran'
  injection ran' with first second
  injection first with first
  injection second with _ second
  exact Prod.ext first second

def Session.start? (p : Pipeline) (config : Config) (plan : FaultPlan) : Option Session :=
  match (openAt Store.root p config : Action Error Unit Ingestor).run () { plan := plan } with
  | (.ok i, (), w) => some (i, w)
  | _ => none

theorem run_openAt_of_start? {p : Pipeline} {config : Config} {plan : FaultPlan} {t : Session}
    (started : Session.start? p config plan = some t) :
    (openAt Store.root p config : Action Error Unit Ingestor).run () { plan := plan } = (.ok t.1, (), t.2) := by
  unfold Session.start? at started
  split at started
  · next i w ran =>
    cases started
    exact ran
  · cases started

theorem grown_openAt {scope : ScopeId} (pipeline : Pipeline) {config : Config} (valid : config.validate = .ok ())
    {w : World} (opens : w.plan.Opens) {t : Session}
    (ran : (openAt scope pipeline config : Action Error Unit Ingestor).run () w = (.ok t.1, (), t.2)) :
    Store.Grown (.named config.chainStore) w.store t.2.store := by
  obtain ⟨i, w'⟩ := t
  have grown := grown_openSites config.chainStore pipeline.stages scope () opens
  simp only [openAt, Action.run_bind, valid, Except.mapError, Action.ofExcept, Action.run_pure] at ran
  split at ran
  · next sites l w'' opened =>
    rw [opened] at grown
    cases ran
    exact grown
  · cases ran

section Opened

variable {verbs : List Verb} (apart : ColumnsApart verbs) {config : Config} (valid : config.validate = .ok ())

include apart valid

/-- Opening the pipeline of verbs below a scope of a store without entries starts a sound session.  The
store may fail reads and writes of that scope's entries. -/
theorem opened_at {scope : ScopeId} {w : World} (nested : w.store.Nested) (open_ : scope < w.store.scopes.length)
    (empty : ∀ id, w.store.buckets id = .empty) (mild : w.plan.Mild)
    (spared : ∀ other, other ≠ scope → w.plan.Spares other) :
    ∃ t : Session, (openAt scope (Pipeline.ofVerbs verbs) config : Action Error Unit Ingestor).run () w =
        (.ok t.1, (), t.2) ∧
      t.1.sites.map Site.stage = (Pipeline.ofVerbs verbs).stages ∧ t.1.config = config ∧ t.2.plan = w.plan ∧
      ∃ root behindSites, root.scope = scope ∧ Sound (Pipeline.composition verbs) root behindSites {} t ∧
        ∀ id, t.2.store.buckets id = .empty := by
  obtain ⟨root, behindSites, ⟨i, w'⟩, ran, rfl, plan, stages, root_scope, placed, same⟩ :=
    run_openAt (Pipeline.ofVerbs verbs) valid nested open_ mild
  have empty' : ∀ id, w'.store.buckets id = .empty := fun id => (same id).trans (empty id)
  have chained := Pipeline.chained_ofVerbs apart
  rw [← stages] at chained
  have root_stage : root.stage = Stage.root (Pipeline.composition verbs) := (List.cons.inj stages).1
  have counting := Pipeline.counting_composition apart
  refine ⟨_, ran, stages, rfl, plan, root, behindSites, root_scope, ?_, empty'⟩
  exact {
    counting
    stage := root_stage
    sites := rfl
    queues := rfl
    standing := {
      grounded := {
        counting := by rw [root_stage]; exact counting.filter_reduces
        holds := fun key d found => by rw [empty'] at found; cases found
        untallied := fun name _ => by rw [empty']; rfl
        queued := fun phase e mem => by cases phase <;> cases mem }
      linked := by rw [empty']; exact linked_of_empty empty' chained
      placed
      sorted := fun id => by rw [empty']; exact SortedMap.sorted_empty }
    ready := {
      mild := plan ▸ mild
      spared := fun site mem => by
        rw [plan]
        apply spared
        intro same
        exact placed.head_not_mem (root_scope.trans same.symm ▸ List.mem_map_of_mem mem)
      open_ := fun site mem => placed.open_ site (List.mem_cons_of_mem _ mem) } }

/-- Opening the pipeline of verbs on a fresh store starts a sound session. -/
theorem opened {plan : FaultPlan} (faults : plan.RootOnly) :
    ∃ t : Session, (openAt Store.root (Pipeline.ofVerbs verbs) config : Action Error Unit Ingestor).run ()
        { plan := plan } = (.ok t.1, (), t.2) ∧
      t.1.sites.map Site.stage = (Pipeline.ofVerbs verbs).stages ∧ t.2.plan = plan ∧
      ∃ root behindSites, Sound (Pipeline.composition verbs) root behindSites {} t ∧
        ∀ id, t.2.store.buckets id = .empty := by
  obtain ⟨t, ran, stages, -, plan, root, behindSites, -, sound, empty⟩ :=
    @opened_at verbs apart config valid Store.root { plan := plan } Store.nested_fresh Nat.zero_lt_one
      Store.buckets_fresh faults.mild fun other apart => faults.spares apart
  exact ⟨t, ran, stages, plan, root, behindSites, sound, empty⟩

end Opened

section Start

variable {verbs : List Verb} (apart : ColumnsApart verbs) {config : Config} (valid : config.validate = .ok ())
  {plan : FaultPlan} (faults : plan.RootOnly) {t : Session}
  (ran : (openAt Store.root (Pipeline.ofVerbs verbs) config : Action Error Unit Ingestor).run ()
    { plan := plan } = (.ok t.1, (), t.2))

include apart valid faults ran

theorem sound_of_openAt : ∃ root behindSites, t.2.plan = plan ∧
    Sound (Pipeline.composition verbs) root behindSites {} t ∧ t.load = 0 := by
  obtain ⟨t', ran', -, same, root, behindSites, sound, empty⟩ := opened apart valid faults
  obtain rfl : t = t' := session_unique ran ran'
  refine ⟨root, behindSites, same, sound, ?_⟩
  rw [sound.load_eq, empty]
  rfl

/-- Short runs from the start are small. -/
theorem small_of_openAt {ops : List Op} (short : 4 * (ops.length + 1) < 2 ^ 53) :
    ∀ done, done <+: ops → (t.after done).Small := by
  obtain ⟨root, behindSites, -, sound, load⟩ := sound_of_openAt apart valid faults ran
  exact sound.small_of_length (by omega)

/-- A commit that no access fails works off everything. -/
theorem queued_after_commit (spares : ∀ scope, plan.Spares scope) {ops : List Op}
    (short : 4 * (ops.length + 2) < 2 ^ 53) : (t.after (ops ++ [.commit])).1.queued = 0 := by
  obtain ⟨root, behindSites, same, sound, load⟩ := sound_of_openAt apart valid faults ran
  apply sound.queued_after_commit (same ▸ spares _)
  apply sound.small_of_length
  rw [List.length_append, List.length_singleton]
  omega

end Start

end Ingestor

end Rollup
