import Rollup.Proofs.Aggregation.Log
import Rollup.Proofs.Ingest.Parallel
import Rollup.Proofs.Store.Tree

/-!
# The scopes of an aggregation

An aggregation lives in the scopes of its sites, and its log is none of them (`Housed`).  What it is
opened as under any name is said once (`Launched`).  Under a name that is free it gets scopes of its own
behind all others, which are empty (`Opened`); that is so for a new aggregation and for one that is
reset (`run_reset`).
-/

namespace Rollup

open Ingest

/-! ## Opening sites -/

namespace Ingestor

variable {σ : Type} {w : World} {scope : ScopeId}

/-- Opening the scopes of stages keeps a tree, whatever the store refuses. -/
theorem tree_openSites (chainStore : String) (stages : List Stage) (l : σ) (tree : w.store.Tree)
    (here : scope < w.store.scopes.length) :
    ((openSites chainStore scope stages).run l w).2.2.store.Tree ∧
      Store.Widened w.store ((openSites chainStore scope stages).run l w).2.2.store := by
  induction stages generalizing scope w with
  | nil => exact ⟨tree, .refl _⟩
  | cons stage rest ih =>
    cases rest with
    | nil => exact ⟨tree, .refl _⟩
    | cons next others =>
      rw [openSites]
      -- Where the store refuses, all that was opened before stays.
      · rcases run_openChild_cases scope (.named chainStore) l w with ⟨f, -, ran⟩ | ran
        · rw [Action.run_bind, ran]
          exact ⟨tree, .refl _⟩
        · have first := w.store.widened_openChild scope (.named chainStore)
          have child := w.store.openChild_lt scope (.named chainStore)
          obtain ⟨tree', later⟩ := ih
            (w := { w with calls := w.calls + 1, store := (w.store.openChild scope (.named chainStore)).2 })
            (tree.openChild here _) child
          have joined := first.trans later
          simp only [Action.run_bind, ran]
          split
          · next x l' w' ran =>
            rw [ran] at tree' joined
            exact ⟨tree', joined⟩
          · next f rest ran =>
            rw [ran] at tree' joined
            exact ⟨tree', joined⟩
      · simp

/-- What the scopes of a chain of stages are opened as: each hangs below the one before. -/
inductive Descends (chainStore : String) : ScopeId → Store → List Site → Store → Prop
  | none (scope : ScopeId) (s : Store) : Descends chainStore scope s [] s
  | last (stage : Stage) (scope : ScopeId) (s : Store) : Descends chainStore scope s [⟨stage, scope⟩] s
  | under (stage : Stage) {scope : ScopeId} {s s' : Store} {next : Site} {rest : List Site} (tree : s.Tree)
      (here : scope < s.scopes.length) (head : next.scope = (s.openChild scope (.named chainStore)).1)
      (hangs : (s'.scope next.scope).place = some (scope, .named chainStore))
      (deeper : Descends chainStore (s.openChild scope (.named chainStore)).1 (s.openChild scope (.named chainStore)).2
        (next :: rest) s') :
      Descends chainStore scope s (⟨stage, scope⟩ :: next :: rest) s'

theorem descends_openSites {chainStore : String} {stages : List Stage} {l l' : σ} {w' : World} {sites : List Site}
    (tree : w.store.Tree) (here : scope < w.store.scopes.length) (opens : w.plan.Opens)
    (ran : (openSites chainStore scope stages).run l w = (.ok sites, l', w')) :
    Descends chainStore scope w.store sites w'.store := by
  induction stages generalizing scope w sites with
  | nil =>
    cases ran
    exact .none scope _
  | cons stage rest ih =>
    cases rest with
    | nil =>
      cases ran
      exact .last stage scope _
    | cons next others =>
      have tree' := tree.openChild here (.named chainStore)
      have here' := w.store.openChild_lt scope (.named chainStore)
      obtain ⟨site, behind, v, later, head, -⟩ :=
        run_openSites chainStore (List.cons_ne_nil next others) l
          (w := { w with calls := w.calls + 1, store := (w.store.openChild scope (.named chainStore)).2 }) tree'.nested
          here' opens
      obtain ⟨-, widened⟩ := tree_openSites chainStore (next :: others) l
        (w := { w with calls := w.calls + 1, store := (w.store.openChild scope (.named chainStore)).2 }) tree' here'
      rw [openSites] at ran
      · simp only [Action.run_bind, run_openChild scope (.named chainStore) l opens, later] at ran
        cases ran
        rw [later] at widened
        refine .under stage tree here head ?_ (ih
          (w := { w with calls := w.calls + 1, store := (w.store.openChild scope (.named chainStore)).2 }) tree' here'
          opens later)
        rw [head, widened.old _ here', w.store.place_openChild]
      · simp

namespace Descends

variable {chainStore : String} {s s' : Store} {sites : List Site} (descends : Descends chainStore scope s sites s')

include descends

/-- Below a scope without children, all scopes that are opened stand behind the others. -/
theorem behind (childless : ∀ id name, (s.scope id).place ≠ some (scope, name)) :
    ∀ site ∈ sites.tail, s.scopes.length ≤ site.scope := by
  induction descends with
  | none | last => exact fun site mem => absurd mem List.not_mem_nil
  | @under stage scope s s' next rest tree here head hangs deeper ih =>
    have opened := Store.openChild_of_none (Store.child?_eq_none.2 fun id => childless id (.named chainStore))
    have child : (s.openChild scope (.named chainStore)).1 = s.scopes.length := by rw [opened]
    have length : (s.openChild scope (.named chainStore)).2.scopes.length = s.scopes.length + 1 := by
      rw [opened, List.length_append, List.length_singleton]
    have later := ih ((tree.openChild here _).childless_last (child ▸ length.le))
    intro other mem
    rcases List.mem_cons.1 mem with rfl | after
    · rw [head, child]
    · exact Nat.le_trans (s.length_openChild_le scope (.named chainStore)) (later other after)

/-- The scopes of chained stages hang under the name for them. -/
theorem place : ∀ site ∈ sites.tail, ∃ above, (s'.scope site.scope).place = some (above, .named chainStore) := by
  induction descends with
  | none | last => exact fun site mem => absurd mem List.not_mem_nil
  | @under stage scope s s' next rest tree here head hangs deeper ih =>
    intro other mem
    rcases List.mem_cons.1 mem with rfl | after
    · exact ⟨scope, hangs⟩
    · exact ih other after

end Descends

end Ingestor

namespace Aggregation

open Ingestor

variable {a : Aggregation} {s s' : Store}

/-! ## Living in scopes -/

/-- The sites of an aggregation are different scopes of a store, and none is the log. -/
structure Housed (a : Aggregation) (s : Store) : Prop where
  sites : a.ingestor.sites ≠ []
  placed : Placed a.ingestor.sites s
  unlogged : ∀ site ∈ a.ingestor.sites, (s.scope site.scope).place ≠ some (a.ingestor.rootScope, .named logName)

namespace Housed

variable (housed : Housed a s)

include housed

theorem rootScope_mem : a.ingestor.rootScope ∈ a.ingestor.sites.map Site.scope := by
  obtain ⟨site, rest, sites⟩ := List.exists_cons_of_ne_nil housed.sites
  rw [rootScope, sites]
  exact List.mem_cons_self

theorem rootScope_lt : a.ingestor.rootScope < s.scopes.length := by
  obtain ⟨site, mem, own⟩ := List.mem_map.1 housed.rootScope_mem
  exact own ▸ housed.placed.open_ site mem

/-- The log is none of the sites. -/
theorem log_not_mem : logScope a.ingestor.rootScope s ∉ a.ingestor.sites.map Site.scope := by
  intro mem
  obtain ⟨site, listed, own⟩ := List.mem_map.1 mem
  rw [logScope, Store.openChild] at own
  cases found : s.child? a.ingestor.rootScope (.named logName) with
  | none =>
    rw [found] at own
    exact Nat.ne_of_lt (housed.placed.open_ site listed) own
  | some log =>
    rw [found] at own
    obtain rfl : site.scope = log := own
    exact housed.unlogged site listed (Store.place_of_child? found).2

/-- An aggregation lives where it did while its ingestor works. -/
theorem later {i : Ingestor} (later : a.ingestor.Later i) (places : s'.places = s.places) :
    Housed { a with ingestor := i } s' := by
  have root : i.rootScope = a.ingestor.rootScope := by rw [rootScope, rootScope, later.sites]
  refine ⟨?_, ⟨?_, fun site mem => ?_⟩, fun site mem => ?_⟩
  · exact later.sites ▸ housed.sites
  · exact later.sites ▸ housed.placed.nodup
  · rw [← Store.length_places, places, Store.length_places]
    exact housed.placed.open_ site (later.sites ▸ mem)
  · show _ ≠ some (i.rootScope, _)
    rw [Store.place_eq, places, ← Store.place_eq, root]
    exact housed.unlogged site (later.sites ▸ mem)

/-- An aggregation lives where it did in a store that has new scopes. -/
theorem widened (widened : Store.Widened s s') : Housed a s' where
  sites := housed.sites
  placed := housed.placed.of_length_le widened.length
  unlogged site mem := by
    rw [widened.old _ (housed.placed.open_ site mem)]
    exact housed.unlogged site mem

end Housed

/-! ## Opening -/

/-- What an ingestor is opened as: its first scope is that of the name, and those of chained stages descend from
it. -/
structure Launched (config : Config) (name : String) (pipeline : Pipeline) (w : World) (i : Ingestor) (w' : World) :
    Prop where
  plan : w'.plan = w.plan
  tree : w'.store.Tree
  widened : (w.store.openChild Store.root (.named name)).2.Widened w'.store
  grown : Store.Grown (.named config.chainStore) (w.store.openChild Store.root (.named name)).2 w'.store
  root : i.rootScope = (w.store.openChild Store.root (.named name)).1
  stages : i.sites.map Site.stage = pipeline.stages
  queues : i.queues = idle i.sites
  placed : Placed i.sites w'.store
  descends : Descends config.chainStore (w.store.openChild Store.root (.named name)).1
    (w.store.openChild Store.root (.named name)).2 i.sites w'.store
  pending : i.backgroundPending = false
  config : i.config = config

/-- An ingestor can be opened below the root of a tree. -/
theorem run_openIngestor_launched {σ : Type} {config : Config} (valid : config.validate = .ok ()) (name : String)
    (pipeline : Pipeline) (l : σ) {w : World} (opens : w.plan.Opens) (tree : w.store.Tree) :
    ∃ i w', (openIngestor config name pipeline).run l w = (.ok i, l, w') ∧ Launched config name pipeline w i w' := by
  have first := run_openChild Store.root (.named name) l opens
  have tree₁ := tree.openChild tree.rooted (.named name)
  have here := w.store.openChild_lt Store.root (.named name)
  let v : World := { w with calls := w.calls + 1, store := (w.store.openChild Store.root (.named name)).2 }
  obtain ⟨site, behindSites, w', ran, head, plan, stages, ascend, open', -⟩ :=
    run_openSites config.chainStore (show pipeline.stages ≠ [] from List.cons_ne_nil _ _) l (w := v) tree₁.nested here
      opens
  obtain ⟨tree', widened⟩ := tree_openSites config.chainStore pipeline.stages l (w := v) tree₁ here
  have grown := grown_openSites config.chainStore pipeline.stages (w.store.openChild Store.root (.named name)).1 l
    (w := v) opens
  have descends := descends_openSites (w := v) tree₁ here opens ran
  rw [ran] at tree' widened grown
  refine ⟨{ sites := site :: behindSites, queues := idle (site :: behindSites), config }, w', ?_, ?_⟩
  · simp only [openIngestor, Action.run_bind, first, openAt, valid, Except.mapError, Action.ofExcept, Action.run_pure]
    simp only [v] at ran
    rw [ran]
    rfl
  · exact {
      plan
      tree := tree'
      widened
      grown
      root := head
      stages
      queues := rfl
      config := rfl
      pending := rfl
      placed := ⟨ascend.imp Nat.ne_of_lt, open'⟩
      descends }

namespace Launched

variable {σ : Type} {config : Config} {name : String} {pipeline : Pipeline} {w w' : World} {i : Ingestor}

/-- Whatever ingestor was opened. -/
theorem of_run {l l' : σ} (never : w.plan = .never) (tree : w.store.Tree)
    (ran : (openIngestor config name pipeline).run l w = (.ok i, l', w')) : Launched config name pipeline w i w' := by
  have opens : w.plan.Opens := never ▸ FaultPlan.never_rootOnly.mild.opens
  cases valid : config.validate with
  | error e =>
    simp only [openIngestor, Action.run_bind, run_openChild Store.root (.named name) l opens, openAt, valid] at ran
    cases ran
  | ok _ =>
    obtain ⟨j, v, ran', launched⟩ := run_openIngestor_launched valid name pipeline l opens tree
    rw [ran] at ran'
    cases ran'
    exact launched

variable (launched : Launched config name pipeline w i w')

include launched

theorem sites_ne_nil : i.sites ≠ [] := by
  intro none
  have stages := launched.stages
  rw [none] at stages
  cases stages

/-- A site is the root or one of a chained stage. -/
theorem root_or_chained {site : Site} (mem : site ∈ i.sites) : site.scope = i.rootScope ∨ site ∈ i.sites.tail := by
  obtain ⟨first, rest, sites⟩ := List.exists_cons_of_ne_nil launched.sites_ne_nil
  rw [rootScope, sites]
  rw [sites] at mem
  exact (List.mem_cons.1 mem).imp_left fun same => congrArg Site.scope same

end Launched

/-- An ingestor that was opened in new scopes. -/
structure Opened (config : Config) (pipeline : Pipeline) (s : Store) (i : Ingestor) (w : World) : Prop where
  never : w.plan = .never
  tree : w.store.Tree
  widened : Store.Widened s w.store
  stages : i.sites.map Site.stage = pipeline.stages
  queues : i.queues = i.sites.map fun _ => {}
  config : i.config = config
  pending : i.backgroundPending = false
  placed : Placed i.sites w.store
  behind : ∀ site ∈ i.sites, s.scopes.length ≤ site.scope
  unlogged : ∀ id, (w.store.scope id).place ≠ some (i.rootScope, .named logName)

namespace Opened

variable {config : Config} {pipeline : Pipeline} {i : Ingestor} {w : World} (opened : Opened config pipeline s i w)

include opened

theorem sites_ne_nil : i.sites ≠ [] := by
  intro none
  have stages := opened.stages
  rw [none] at stages
  cases stages

theorem housed (name : String) : Housed { name, pipeline, ingestor := i } w.store :=
  ⟨opened.sites_ne_nil, opened.placed, fun site _ => opened.unlogged site.scope⟩

/-- Its scopes are empty. -/
theorem empty : ∀ site ∈ i.sites, w.store.buckets site.scope = .empty :=
  fun site mem => opened.widened.values site.scope (opened.behind site mem)

/-- Its log has yet to be made. -/
theorem logScope_eq : logScope i.rootScope w.store = w.store.scopes.length :=
  Store.openChild_of_unplaced opened.unlogged

end Opened

/-- Under a free name an ingestor gets new scopes. -/
theorem run_openIngestor {σ : Type} {config : Config} (valid : config.validate = .ok ())
    (chained : config.chainStore ≠ logName) (name : String) (pipeline : Pipeline) (l : σ) {w : World}
    (never : w.plan = .never) (tree : w.store.Tree) (free : w.store.child? Store.root (.named name) = none) :
    ∃ i w', (openIngestor config name pipeline).run l w = (.ok i, l, w') ∧ Opened config pipeline w.store i w' := by
  obtain ⟨i, w', ran, launched⟩ := run_openIngestor_launched valid name pipeline l
    (never ▸ FaultPlan.never_rootOnly.mild.opens) tree
  have open_ := Store.openChild_of_none free
  have first := w.store.widened_openChild Store.root (.named name)
  have child : (w.store.openChild Store.root (.named name)).1 = w.store.scopes.length := by rw [open_]
  have length : (w.store.openChild Store.root (.named name)).2.scopes.length = w.store.scopes.length + 1 := by
    rw [open_, List.length_append, List.length_singleton]
  have childless := (tree.openChild tree.rooted (.named name)).childless_last (child ▸ length.le)
  refine ⟨i, w', ran, ?_⟩
  constructor
  case never => exact launched.plan.trans never
  case tree => exact launched.tree
  case widened => exact first.trans launched.widened
  case stages => exact launched.stages
  case queues => exact launched.queues
  case config => exact launched.config
  case pending => exact launched.pending
  case placed => exact launched.placed
  case behind =>
    intro site mem
    rcases launched.root_or_chained mem with top | chained
    · rw [top, launched.root, child]
    · exact Nat.le_trans first.length (launched.descends.behind childless site chained)
  case unlogged =>
    intro id hangs
    rw [launched.root] at hangs
    -- What hangs below the new scope was opened for a chained stage.
    rcases launched.grown.place id _ _ hangs with before | same
    · exact childless id _ before
    · exact chained (by simpa [Key.named] using same.symm)

/-- A reset deletes the scope of the name and opens the ingestor anew. -/
theorem run_reset_of_opened {w w' : World} {i : Ingestor} (never : w.plan = .never)
    (opened : (openIngestor a.ingestor.config a.name a.pipeline).run a
      { w with calls := w.calls + 1, store := w.store.deleteChild Store.root (.named a.name) } = (.ok i, a, w')) :
    reset.run a w = (.ok (), { a with ingestor := i }, w') := by
  have deleted : (Access.deleteChild Store.root (.named a.name)).run a w = (.ok (), a,
      { w with calls := w.calls + 1, store := w.store.deleteChild Store.root (.named a.name) }) := by
    rw [Access.deleteChild, Action.run_bind, run_call_never a _ never]
    rfl
  simp only [reset, Action.run_bind, Action.run_getLocal, Action.run_attempt, deleted, run_reported opened]
  rfl

/-- A reset aggregation lives in new scopes. -/
theorem run_reset {config : Config} (own : a.ingestor.config = config) (valid : config.validate = .ok ())
    (chained : config.chainStore ≠ logName) {w : World} (never : w.plan = .never) (tree : w.store.Tree) :
    ∃ i w', reset.run a w = (.ok (), { a with ingestor := i }, w') ∧
      Opened config a.pipeline (w.store.deleteChild Store.root (.named a.name)) i w' := by
  subst own
  obtain ⟨i, w', ran, opened⟩ := run_openIngestor valid chained a.name a.pipeline a
    (w := { w with calls := w.calls + 1, store := w.store.deleteChild Store.root (.named a.name) }) never
    (tree.deleteChild _ _) (tree.child?_deleteChild _ _)
  exact ⟨i, w', run_reset_of_opened never ran, opened⟩

/-- A new aggregation lives in new scopes. -/
theorem run_openNamed_free {σ : Type} {config : Config} (valid : config.validate = .ok ())
    (chained : config.chainStore ≠ logName) (name : String) {q : Query} {pipeline : Pipeline}
    (compiled : q.compile = .ok pipeline) (l : σ) {w : World} (never : w.plan = .never) (tree : w.store.Tree)
    (free : w.store.child? Store.root (.named name) = none) :
    ∃ i w', (openNamed config name q).run l w = (.ok { name, pipeline, ingestor := i }, l, w') ∧
      Opened config pipeline w.store i w' := by
  obtain ⟨i, w', ran, opened⟩ := run_openIngestor valid chained name pipeline l never tree free
  exact ⟨i, w', run_openNamed_of_openIngestor valid chained compiled ran, opened⟩

end Aggregation

end Rollup
