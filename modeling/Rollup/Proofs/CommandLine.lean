import Rollup.CommandLine
import Rollup.Proofs.Aggregation.Agreement
import Rollup.Proofs.Aggregation.Calls
import Rollup.Proofs.Concurrent.Programs
import Rollup.Proofs.Ingest.Feeding

/-!
# The command line

The command adds all events before it retracts any, with a commit between them.  So whenever background
commits go, and whatever a configuration says about them, the batches of its cycles add first and have
the same entries together (`Reached`), and its answers agree (`batching_unseen`).
-/

namespace Rollup

open Ingest

namespace Ingestor

/-- Thresholds and workers have no part in opening. -/
theorem run_openAt_reconfigured {scope : ScopeId} {pipeline : Pipeline} {config config' : Config}
    (valid : config.validate = .ok ()) (valid' : config'.validate = .ok ())
    (alike : config'.chainStore = config.chainStore) {w : World} {t : Session}
    (ran : (openAt scope pipeline config : Action Error Unit Ingestor).run () w = (.ok t.1, (), t.2)) :
    (openAt scope pipeline config' : Action Error Unit Ingestor).run () w =
      (.ok { t.1 with config := config' }, (), t.2) := by
  simp only [openAt, Action.run_bind, valid, valid', Except.mapError, Action.ofExcept, Action.run_pure, alike] at ran ⊢
  obtain ⟨i, w'⟩ := t
  rcases opened : (openSites config.chainStore scope pipeline.stages : Action Error Unit _).run () w with
    ⟨_ | sites, l, w''⟩
  · rw [opened] at ran
    cases ran
  · rw [opened] at ran
    cases ran
    rfl

end Ingestor

theorem Except.exists_of_bind_eq_ok {ε α β : Type} {x : Except ε α} {f : α → Except ε β} {b : β}
    (bound : x >>= f = .ok b) : ∃ a, x = .ok a ∧ f a = .ok b := by
  cases x with
  | error e => cases bound
  | ok a => exact ⟨a, rfl, bound⟩

namespace CommandLine

open Aggregation Concurrent

/-! ## Requests -/

/-- What the files and the options of a request say. -/
structure Request.Reads (r : Request) (config : Config) (q : Query) (index? : Option (List Value))
    (events : List Document) (retracted? : Option (List Document)) : Prop where
  config_eq : readConfig r.config? = .ok config
  query_eq : readQuery r.query = .ok q
  index_eq : readIndex r.index? = .ok index?
  events_eq : readEvents r.events = .ok events
  retracted_eq : r.retract?.mapM readEvents = .ok retracted?

theorem validate_of_readConfig {source? : Option Source} {config : Config} (read : readConfig source? = .ok config) :
    config.validate = .ok () := by
  cases source? with
  | none =>
    cases read
    rfl
  | some s =>
    obtain ⟨text, -, read⟩ := Except.exists_of_bind_eq_ok read
    rw [Config.ofString] at read
    cases denoted : Config.read? text with
    | none =>
      rw [denoted] at read
      cases read
    | some c =>
      rw [denoted] at read
      cases valid : c.validate with
      | error e => simp [valid, Except.map, Except.mapError] at read
      | ok _ =>
        simp only [valid, Except.map, Except.mapError, Except.ok.injEq] at read
        rw [← read, valid]

/-- The calls that the command makes. -/
def calls (events : List Document) (retracted? : Option (List Document)) : List Thread :=
  events.map .ingest ++ .commit :: retracted?.elim [] fun docs => docs.map .uningest ++ [.commit]

/-- The entries that these calls queue. -/
def queued (stage : Stage) (events : List Document) (retracted? : Option (List Document)) : Queues :=
  ⟨events.filterMap stage.map?, (retracted?.getD []).filterMap stage.map?⟩

theorem queuedBy_pushing (stage : Stage) (which phase : Phase) (docs : List Document) :
    queuedBy stage phase (docs.map (.pushing which)) = if which = phase then docs.filterMap stage.map? else [] := by
  rw [queuedBy, List.filterMap_map]
  split
  · next same =>
    congr 1
    funext doc
    exact if_pos same
  · next other => exact List.filterMap_eq_nil_iff.2 fun doc _ => if_neg other

section Calls

variable (events : List Document) (retracted? : Option (List Document))

theorem queuedBy_calls (stage : Stage) (phase : Phase) :
    queuedBy stage phase (calls events retracted?) = (queued stage events retracted?).entries phase := by
  have commits : queuedBy stage phase [.commit] = [] := rfl
  have adds := queuedBy_pushing stage .add phase events
  cases retracted? with
  | none =>
    show queuedBy stage phase (events.map (.pushing .add) ++ [.commit]) = _
    rw [queuedBy_append, adds, commits]
    cases phase <;> simp [queued, Queues.entries]
  | some docs =>
    show queuedBy stage phase
      (events.map (.pushing .add) ++ ([.commit] ++ (docs.map (.pushing .retract) ++ [.commit]))) = _
    rw [queuedBy_append, queuedBy_append, queuedBy_append, adds, commits, queuedBy_pushing]
    cases phase <;> simp [queued, Queues.entries]

theorem orderly_calls :
    Orderly (events.map .ingest) (retracted?.elim [] fun docs => docs.map .uningest ++ [.commit]) := by
  have later : ∀ call ∈ (retracted?.elim [] fun docs => docs.map .uningest ++ [.commit] : List Thread),
      (∃ doc, call = .uningest doc) ∨ call = .commit := by
    cases retracted? with
    | none => exact fun call mem => by cases mem
    | some docs =>
      intro call mem
      rcases List.mem_append.1 mem with listed | last
      · obtain ⟨doc, -, rfl⟩ := List.mem_map.1 listed
        exact .inl ⟨doc, rfl⟩
      · exact .inr (List.mem_singleton.1 last)
  constructor
  case fresh =>
    intro call mem
    rcases List.mem_append.1 mem with listed | mem
    · obtain ⟨doc, -, rfl⟩ := List.mem_map.1 listed
      trivial
    rcases List.mem_cons.1 mem with rfl | mem
    · trivial
    · rcases later call mem with ⟨doc, rfl⟩ | rfl <;> trivial
  case adds =>
    intro call mem doc
    obtain ⟨_, -, rfl⟩ := List.mem_map.1 mem
    exact fun same => by cases same
  case retracts =>
    intro call mem doc
    rcases later call mem with ⟨_, rfl⟩ | rfl <;> exact fun same => by cases same

theorem getLast?_calls : (calls events retracted?).getLast? = some .commit := by
  cases retracted? <;> simp [calls, List.getLast?_append, List.getLast?_cons]

theorem queued_of_mem {verbs : List Verb} (counting : Counting verbs) {phase : Phase} {e : Key × Document}
    (mem : e ∈ (queued (Stage.root verbs) events retracted?).entries phase) : Queued verbs (Stage.root verbs) e := by
  have made : ∃ doc, (Stage.root verbs).map? doc = some e := by
    cases phase <;> exact (List.mem_filterMap.1 mem).imp fun doc made => made.2
  obtain ⟨doc, made⟩ := made
  exact Ingestor.queued_of_root_map? counting made

theorem size_queued_le (stage : Stage) :
    (queued stage events retracted?).size ≤ events.length + (retracted?.getD []).length :=
  Nat.add_le_add (List.length_filterMap_le _ _) (List.length_filterMap_le _ _)

end Calls

/-! ## What the command may print -/

/-- What the command tells of the end of a computation. -/
def told {α : Type} : Except (Failure Problem) α → Except Problem α
  | .ok x => .ok x
  | .error (.error p) => .error p
  | .error .crash => .error .crashed

/-- What the command tells of a call that has failed. -/
def problem : Failure Error → Problem
  | .error e => .refused (.ofError e)
  | .crash => .crashed

/-- A moment of the command: the calls that it makes go one after the other, and background commits
beside them. -/
inductive Runs (r : Request) : Option (List Value) → List Thread → Aggregation → Floor → Prop
  | intro {config : Config} {q : Query} {index? : Option (List Value)} {events : List Document}
      {retracted? : Option (List Document)} (reads : r.Reads config q index? events retracted?) {a : Aggregation}
      {w : World} (opened : (openNamed config aggregationName q : Action Report Unit Aggregation).run () {} =
        (.ok a, (), w))
      {schedule : Floor.Schedule} {g : Floor}
      (turns : (Floor.start (a.ingestor, w) (calls events retracted?)).inTurn (calls events retracted?).length
        schedule = true)
      (ran : (Floor.start (a.ingestor, w) (calls events retracted?)).run? schedule = some g) :
      Runs r index? (calls events retracted?) a g

/-- What the command may print for a request. -/
inductive Prints (r : Request) : Except Problem (List Row) → Prop
  /-- Every background commit is over before the command goes on. -/
  | alone : Prints r (run r)
  /-- Background commits go beside the calls, which have all returned. -/
  | beside {index? : Option (List Value)} {calls : List Thread} {a : Aggregation} {g : Floor}
      (runs : Runs r index? calls a g) (returned : g.returned calls.length = true) :
      Prints r (told ((answer index?).run { a with ingestor := g.ingestor } g.world).1)
  /-- A call has failed. -/
  | failing {index? : Option (List Value)} {calls : List Thread} {a : Aggregation} {g : Floor}
      (runs : Runs r index? calls a g) {k : Nat} (below : k < calls.length) {failure : Failure Error}
      (returned : g.threads[k]? = some (.ended (.error failure))) : Prints r (.error (problem failure))

/-- Whether the rows can be had that are asked for. -/
def Answerable (p : Pipeline) (index? : Option (List Value)) : Prop :=
  ∀ values, index? = some values → p.isIndexed = true ∧ (lookupKey? values).isSome = true

theorem answerable_none (p : Pipeline) : Answerable p none := fun _ same => by cases same

/-- Two answers are rows of the same buckets, unless nothing can be answered and they are one report. -/
structure SameAnswer (q : Query) (p : Pipeline) (index? : Option (List Value)) (x x' : Except Problem (List Row)) :
    Prop where
  rows : Answerable p index? → ∃ entries entries', x = .ok (rows entries) ∧ x' = .ok (rows entries') ∧
    List.Forall₂ (SameBucket q) entries entries'
  report : ¬Answerable p index? → ∃ report, x = .error (.refused report) ∧ x' = .error (.refused report)

/-! ## What the command reaches -/

/-- The aggregation of the command when these entries are in the batches of its cycles. -/
structure Reached (p : Pipeline) (root : Site) (behindSites : List Site) (start : Store) (all : Queues)
    (a : Aggregation) (w : World) : Prop where
  name : a.name = aggregationName
  pipeline : a.pipeline = p
  sites : a.ingestor.sites = root :: behindSites
  plan : w.plan = .never
  collected : Collected root behindSites start all w.store

/-- Where the aggregation of a query lives, whatever a configuration says of thresholds and workers. -/
theorem opens {q : Query} {verbs : List Verb} (compiled : q.compile = .ok (.ofVerbs verbs))
    (columns : ColumnsApart verbs) {config : Config} (valid : config.validate = .ok ())
    (chained : config.chainStore ≠ logName) :
    ∃ root behindSites w, (root :: behindSites).map Site.stage = (Pipeline.ofVerbs verbs).stages ∧
      w.plan = .never ∧ Ingestor.Standing (Pipeline.composition verbs) root behindSites {} w.store ∧
      (∀ id, w.store.buckets id = .empty) ∧
      ∀ config' : Config, config'.validate = .ok () → config'.chainStore = config.chainStore →
        (openNamed config' aggregationName q : Action Report Unit Aggregation).run () {} =
          (.ok { name := aggregationName, pipeline := .ofVerbs verbs, ingestor :=
            { sites := root :: behindSites, queues := {} :: idle behindSites, config := config' } }, (), w) := by
  have mild : (belowRoot aggregationName).plan.Mild := FaultPlan.never_rootOnly.mild
  obtain ⟨empty, nested, here⟩ := belowRoot_spec aggregationName
  obtain ⟨root, behindSites, t, ran, ingestor, plan, stages, -, placed, -⟩ :=
    Ingestor.run_openAt (Pipeline.ofVerbs verbs) valid nested here mild
  obtain ⟨t', ran', -, -, -, root', behindSites', -, sound, empty'⟩ :=
    Ingestor.opened_at columns valid nested here empty mild fun other _ => FaultPlan.never_spares other
  obtain rfl := Ingestor.session_unique ran ran'
  obtain ⟨rfl, rfl⟩ := List.cons.inj (sound.sites.symm.trans (congrArg Ingestor.sites ingestor))
  refine ⟨root', behindSites', t.2, stages, plan, sound.standing, empty', fun config' valid' alike => ?_⟩
  have reran := Ingestor.run_openAt_reconfigured valid valid' alike ran
  rw [ingestor] at reran
  exact run_openNamed_of_openAt compiled valid' (alike ▸ chained) reran

section Feeding

variable {r : Request} {config : Config} {q : Query} {index? : Option (List Value)} {events : List Document}
  {retracted? : Option (List Document)} (reads : r.Reads config q index? events retracted?)

theorem run_refused {σ α : Type} {act : Action Report σ α} {l : σ} {w : World} {x : α} {rest : σ × World}
    (ran : act.run l w = (.ok x, rest)) : (refused act).run l w = (.ok x, rest) := by
  rw [refused, Action.mapError, Action.run_ofRun, ran]

/-- Calls on the ingestor, one after the other. -/
theorem run_forM_onIngestor {ε : Type} {act : Document → Action ε Ingestor Unit} {docs : List Document}
    {a : Aggregation} {w : World} {t : Ingestor.Session} (ran : (docs.forM act).run a.ingestor w = (.ok (), t)) :
    (docs.forM fun doc => onIngestor (act doc)).run a w = (.ok (), { a with ingestor := t.1 }, t.2) := by
  induction docs generalizing a w with
  | nil =>
    cases ran
    rfl
  | cons doc rest ih =>
    rw [List.forM_eq_forM, List.forM_cons, Action.run_bind] at ran ⊢
    rcases first : (act doc).run a.ingestor w with ⟨_ | _, i, w'⟩
    · rw [first] at ran
      cases ran
    · rw [first] at ran
      have here : (onIngestor (act doc)).run a w = (.ok (), { a with ingestor := i }, w') := by
        rw [onIngestor, Action.run_zoom, first]
      rw [here]
      exact @ih { a with ingestor := i } w' ran

theorem run_commit {a : Aggregation} {w : World} {t : Ingestor.Session}
    (ran : Ingestor.commit.run a.ingestor w = (.ok (), t)) :
    (refused Aggregation.commit).run a w = (.ok (), { a with ingestor := t.1 }, t.2) := by
  have here : (onIngestor Ingestor.commit).run a w = (.ok (), { a with ingestor := t.1 }, t.2) := by
    rw [onIngestor, Action.run_zoom, ran]
  exact run_refused (run_reported here)

include reads

/-- Left alone, the command feeds everything to its aggregation. -/
theorem run_feed {root : Site} {behindSites : List Site} {start : Store} {a : Aggregation} {w : World}
    (fed : Ingestor.Fed root behindSites start {} {} (a.ingestor, w)) :
    ∃ t, (feed r).run a w = (.ok (), { a with ingestor := t.1 }, t.2) ∧
      Ingestor.Fed root behindSites start (queued root.stage events retracted?) {} t := by
  obtain ⟨q₁, t₁, ran₁, fed₁⟩ := fed.ingestAll (ε := Problem) rfl events
  -- Every event is in a finished batch before the first retraction is queued.
  obtain ⟨t₂, ran₂, fed₂⟩ := fed₁.commit
  have adds : (events.forM fun doc => Aggregation.ingest doc : Run Unit).run a w =
      (.ok (), { a with ingestor := t₁.1 }, t₁.2) := run_forM_onIngestor ran₁
  have commits : (refused Aggregation.commit).run { a with ingestor := t₁.1 } t₁.2 =
      (.ok (), { a with ingestor := t₂.1 }, t₂.2) := run_commit ran₂
  have retracted := reads.retracted_eq
  cases source : r.retract? with
  | none =>
    rw [source] at retracted
    cases retracted
    refine ⟨t₂, ?_, by simpa [queued] using fed₂⟩
    simp only [feed, source, reads.events_eq, Action.ofExcept, Action.run_bind, Action.run_pure, adds, commits]
  | some s =>
    rw [source] at retracted
    obtain ⟨docs, listed, same⟩ := Except.exists_of_bind_eq_ok retracted
    cases same
    obtain ⟨q₃, t₃, ran₃, fed₃⟩ := fed₂.uningestAll (ε := Problem) rfl docs
    obtain ⟨t₄, ran₄, fed₄⟩ := fed₃.commit
    have retracts : (docs.forM fun doc => Aggregation.uningest doc : Run Unit).run { a with ingestor := t₂.1 } t₂.2 =
        (.ok (), { a with ingestor := t₃.1 }, t₃.2) := run_forM_onIngestor (a := { a with ingestor := t₂.1 }) ran₃
    have commits' : (refused Aggregation.commit).run { a with ingestor := t₃.1 } t₃.2 =
        (.ok (), { a with ingestor := t₄.1 }, t₄.2) := run_commit (a := { a with ingestor := t₃.1 }) ran₄
    refine ⟨t₄, ?_, by simpa [queued] using fed₄⟩
    simp only [feed, source, reads.events_eq, listed, Action.ofExcept, Action.run_bind, Action.run_pure, adds, commits,
      retracts, commits']

/-- The command opens an aggregation, feeds it and answers. -/
theorem run_eq : run r = told (onAggregation config q (do feed r; answer index?)) := by
  have ok_bind {α β : Type} (x : α) (f : α → Except Problem β) : (Except.ok x >>= f) = f x := rfl
  simp only [run, reads.config_eq, reads.query_eq, reads.index_eq, ok_bind]
  rcases onAggregation config q (do feed r; answer index?) with (_ | _) | _ <;> rfl

theorem Request.Reads.unique {config' : Config} {q' : Query} {index?' : Option (List Value)} {events' : List Document}
    {retracted?' : Option (List Document)} (reads' : r.Reads config' q' index?' events' retracted?') :
    config' = config ∧ q' = q ∧ index?' = index? ∧ events' = events ∧ retracted?' = retracted? :=
  ⟨Except.ok.inj (reads'.config_eq.symm.trans reads.config_eq),
    Except.ok.inj (reads'.query_eq.symm.trans reads.query_eq),
    Except.ok.inj (reads'.index_eq.symm.trans reads.index_eq),
    Except.ok.inj (reads'.events_eq.symm.trans reads.events_eq),
    Except.ok.inj (reads'.retracted_eq.symm.trans reads.retracted_eq)⟩

/-- A moment of the command is one of the calls on what it reads, made of the aggregation that it opens. -/
theorem Runs.exists_schedule {a b : Aggregation} {w : World} {index?' : Option (List Value)} {made : List Thread}
    {g : Floor} (runs : Runs r index?' made b g)
    (opened : (openNamed config aggregationName q : Action Report Unit Aggregation).run () {} = (.ok a, (), w)) :
    index?' = index? ∧ made = calls events retracted? ∧ b = a ∧ ∃ schedule,
      (Floor.start (a.ingestor, w) (calls events retracted?)).inTurn (calls events retracted?).length schedule = true ∧
        (Floor.start (a.ingestor, w) (calls events retracted?)).run? schedule = some g := by
  cases runs with
  | intro reads' opened' turns ran =>
    obtain ⟨rfl, rfl, rfl, rfl, rfl⟩ := Request.Reads.unique reads reads'
    rw [opened] at opened'
    cases opened'
    exact ⟨rfl, rfl, rfl, _, turns, ran⟩

variable {p : Pipeline} {root : Site} {behindSites : List Site} {w : World}
  (never : w.plan = .never) (placed : Placed (root :: behindSites) w.store)
  (empty : ∀ id, w.store.buckets id = .empty)
  (opened : (openNamed config aggregationName q : Action Report Unit Aggregation).run () {} =
    (.ok { name := aggregationName, pipeline := p, ingestor :=
      { sites := root :: behindSites, queues := {} :: idle behindSites, config } }, (), w))

include never placed empty opened

/-- Whatever the command prints is an answer of an aggregation that has the entries of all documents. -/
theorem Prints.reached {x : Except Problem (List Row)} (prints : Prints r x) :
    ∃ a w', x = told ((answer index?).run a w').1 ∧
      Reached p root behindSites w.store (queued root.stage events retracted?) a w' := by
  have start : AddsFirst ([] ++ [({} : Queues)]) := .retracts (.adds fun _ mem => by cases mem) rfl
  have sorted : ∀ id, (w.store.buckets id).Sorted := fun id => by
    rw [empty]
    exact SortedMap.sorted_empty
  cases prints with
  | alone =>
    obtain ⟨t, ran, fed⟩ := run_feed reads (a := { name := aggregationName, pipeline := p, ingestor :=
      { sites := root :: behindSites, queues := {} :: idle behindSites, config } })
      (w := w) ⟨rfl, rfl, never, placed, [], .start, start, rfl⟩
    refine ⟨{ name := aggregationName, pipeline := p, ingestor := t.1 }, t.2, ?_, rfl, rfl, fed.sites, fed.plan,
      fed.collected⟩
    rw [run_eq reads, onAggregation, run_refused opened]
    show told ((do feed r; answer index?).run _ _).1 = _
    rw [Action.run_bind, ran]
  | beside runs returned =>
    obtain ⟨rfl, rfl, rfl, schedule, turns, ran⟩ := runs.exists_schedule reads opened
    obtain ⟨sites, plan, batches, batched, first, whole⟩ := Floor.run_inTurn (orderly_calls _ _) rfl never placed sorted
      rfl turns ran (getLast?_calls _ _) returned
    refine ⟨_, _, rfl, rfl, rfl, sites, plan, batches, batched, first, ?_⟩
    exact Queues.eq_of_entries fun phase => (whole phase).trans (queuedBy_calls _ _ _ phase)
  -- No call of such a program fails, whatever goes on beside it.
  | failing runs below returned =>
    obtain ⟨rfl, rfl, rfl, schedule, turns, ran⟩ := runs.exists_schedule reads opened
    have fine := Floor.ended_inTurn (orderly_calls _ _) rfl never placed sorted rfl turns ran below returned
    cases fine

end Feeding

/-! ## Answers -/

theorem forall₂_takeWhile {α : Type} {R : α → α → Prop} {f : α → Bool} (congr : ∀ x y, R x y → f x = f y)
    {xs ys : List α} (same : List.Forall₂ R xs ys) : List.Forall₂ R (xs.takeWhile f) (ys.takeWhile f) := by
  induction same with
  | nil => exact .nil
  | @cons x y xs ys here _ ih =>
    rw [List.takeWhile_cons, List.takeWhile_cons, congr x y here]
    split
    · exact .cons here ih
    · exact .nil

theorem forall₂_dropWhile {α : Type} {R : α → α → Prop} {f : α → Bool} (congr : ∀ x y, R x y → f x = f y)
    {xs ys : List α} (same : List.Forall₂ R xs ys) : List.Forall₂ R (xs.dropWhile f) (ys.dropWhile f) := by
  induction same with
  | nil => exact .nil
  | @cons x y xs ys here later ih =>
    rw [List.dropWhile_cons, List.dropWhile_cons, congr x y here]
    split
    · exact ih
    · exact .cons here later

/-- Lookups in scopes with the same buckets find the same ones. -/
theorem forall₂_entriesUnder {q : Query} {s s' : Store} {scope : ScopeId} (front : Key)
    (same : List.Forall₂ (SameBucket q) (s.entries scope) (s'.entries scope)) :
    List.Forall₂ (SameBucket q) (s.entriesUnder scope front) (s'.entriesUnder scope front) := by
  apply forall₂_takeWhile
  · intro e e' same
    rw [same.key]
  apply forall₂_dropWhile
  · intro e e' same
    rw [same.key]
  exact same

section Answers

variable {q : Query} {p : Pipeline} {root : Site} {behindSites : List Site} {start : Store} {all : Queues}
  {a a' : Aggregation} {w w' : World}

theorem Reached.finalScope_eq (reached : Reached p root behindSites start all a w) :
    a.ingestor.finalScope = ((root :: behindSites).getLast (List.cons_ne_nil root behindSites)).scope := by
  rw [Ingestor.finalScope, reached.sites, List.getLast?_eq_some_getLast (List.cons_ne_nil root behindSites)]
  rfl

theorem Reached.rootScope_eq (reached : Reached p root behindSites start all a w) :
    a.ingestor.rootScope = root.scope := by
  rw [Ingestor.rootScope, reached.sites]
  rfl

theorem told_refused_ok {σ α : Type} {act : Action Report σ α} {l : σ} {w : World} {x : α}
    (ran : (act.run l w).1 = .ok x) : told ((refused act).run l w).1 = .ok x := by
  rcases whole : act.run l w with ⟨r, rest⟩
  rw [whole] at ran
  rw [show r = .ok x from ran] at whole
  rw [run_refused whole]
  rfl

theorem told_refused_error {σ α : Type} {act : Action Report σ α} {l : σ} {w : World} {report : Report}
    (ran : (act.run l w).1 = .error (.error report)) : told ((refused act).run l w).1 = .error (.refused report) := by
  rcases whole : act.run l w with ⟨r, rest⟩
  rw [whole] at ran
  rw [show r = .error (.error report) from ran] at whole
  rw [refused, Action.mapError, Action.run_ofRun, whole]
  rfl

theorem Reached.told_results (reached : Reached p root behindSites start all a w) :
    told ((answer none).run a w).1 = .ok (Aggregation.rows (w.store.entries
      ((root :: behindSites).getLast (List.cons_ne_nil root behindSites)).scope)) := by
  rw [← reached.finalScope_eq]
  exact told_refused_ok (run_results (t := (a, w)) reached.plan)

/-- A lookup finds what begins with its values, or its report depends on the query and on these alone. -/
theorem Reached.told_lookup (reached : Reached p root behindSites start all a w) (values : List Value) :
    told ((answer (some values)).run a w).1 =
      if !p.isIndexed then
        .error (.refused ⟨.queryUnsupported, .query, "aggregation '" ++ aggregationName ++ "' has no IndexedBy"⟩)
      else
        match lookupKey? values with
        | none => .error (.refused ⟨.queryInvalid, .query, "index lookups take text or numeric values only"⟩)
        | some front => .ok (Aggregation.rows (w.store.entriesUnder root.scope front)) := by
  obtain ⟨w', -, -, ran⟩ := run_lookup a reached.plan values
  have first : ((Aggregation.lookup values).run a w).1 = found a w.store values := by rw [ran]
  rw [found, reached.pipeline, reached.name, reached.rootScope_eq] at first
  split at first
  · next unindexed =>
    rw [if_pos unindexed]
    exact told_refused_error first
  · next indexed =>
    rw [if_neg indexed]
    cases key : lookupKey? values with
    | none =>
      rw [key] at first
      exact told_refused_error first
    | some front =>
      rw [key] at first
      exact told_refused_ok first

/-- Aggregations whose stages have the same buckets give the same answer. -/
theorem sameAnswer (reached : Reached p root behindSites start all a w)
    (reached' : Reached p root behindSites start all a' w')
    (same : ∀ site ∈ root :: behindSites,
      List.Forall₂ (SameBucket q) (w.store.entries site.scope) (w'.store.entries site.scope))
    (index? : Option (List Value)) :
    SameAnswer q p index? (told ((answer index?).run a w).1) (told ((answer index?).run a' w').1) := by
  cases index? with
  | none =>
    rw [reached.told_results, reached'.told_results]
    exact ⟨fun _ => ⟨_, _, rfl, rfl, same _ (List.getLast_mem _)⟩, fun unasked => absurd (answerable_none p) unasked⟩
  | some values =>
    have answerable : Answerable p (some values) ↔ p.isIndexed = true ∧ (lookupKey? values).isSome = true :=
      ⟨fun all => all values rfl, fun one _ same => Option.some.inj same ▸ one⟩
    rw [reached.told_lookup, reached'.told_lookup]
    -- The index and the key are the same on both sides, so both are refused or neither is.
    refine ⟨fun asked => ?_, fun unasked => ?_⟩
    · obtain ⟨indexed, readable⟩ := answerable.1 asked
      obtain ⟨front, key⟩ := Option.isSome_iff_exists.1 readable
      simp only [indexed, key]
      exact ⟨_, _, rfl, rfl, forall₂_entriesUnder front (same root List.mem_cons_self)⟩
    · rw [answerable, not_and_or] at unasked
      rcases unasked with unindexed | unreadable
      · rw [Bool.not_eq_true] at unindexed
        simp only [unindexed]
        exact ⟨_, rfl, rfl⟩
      · rw [Option.not_isSome_iff_eq_none] at unreadable
        simp only [unreadable]
        split <;> exact ⟨_, rfl, rfl⟩

end Answers

/-- However the cycles of the command fall among its calls, and whatever its configuration says of when to
commit and with how many workers, it prints rows of the same buckets, in the same order, with the same counts,
unique counts and values, or the same report.  So few documents are counted exactly as doubles. -/
theorem batching_unseen {r r' : Request} {config config' : Config} {q : Query} {index? : Option (List Value)}
    {events : List Document} {retracted? : Option (List Document)}
    (reads : r.Reads config q index? events retracted?) (reads' : r'.Reads config' q index? events retracted?)
    (alike : config'.chainStore = config.chainStore) (chained : config.chainStore ≠ logName) {p : Pipeline}
    (compiled : q.compile = .ok p) (outputs : q.OutputsApart) (short : q.clauses.length < 2 ^ 62)
    (few : events.length + (retracted?.getD []).length < 2 ^ 51) {x x' : Except Problem (List Row)}
    (prints : Prints r x) (prints' : Prints r' x') : SameAnswer q p index? x x' := by
  obtain ⟨verbs, read, rfl⟩ := Query.exists_read_of_compile compiled
  have columns := Query.columnsApart_of_read read outputs
  have plain := Query.plain_of_read read short
  have valid := validate_of_readConfig reads.config_eq
  have valid' := validate_of_readConfig reads'.config_eq
  obtain ⟨root, behindSites, w, stages, never, standing, empty, opened⟩ := opens compiled columns valid chained
  -- Both aggregations start with the same sites in the same empty store.
  obtain ⟨a, v, rfl, reached⟩ := prints.reached reads never standing.placed empty (opened config valid rfl)
  obtain ⟨a', v', rfl, reached'⟩ := prints'.reached reads' never standing.placed empty (opened config' valid' alike)
  have root_stage : root.stage = Stage.root (Pipeline.composition verbs) := (List.cons.inj stages).1
  have counting := Pipeline.counting_composition columns
  have small := size_queued_le events retracted? root.stage
  -- What the root counts depends on the entries alone, and the stages behind follow it.
  have tallies {s : Store} (collected : Collected root behindSites w.store (queued root.stage events retracted?) s) :=
    Ingestor.tallies_of_collected collected standing (empty _)
      (fun phase e mem => by rw [root_stage] at mem ⊢; exact queued_of_mem events retracted? counting mem) (by omega)
  apply sameAnswer reached reached'
  intro site mem
  have staged : site.stage ∈ (Pipeline.ofVerbs verbs).stages := stages ▸ List.mem_map_of_mem mem
  apply ((tallies reached.collected).forall₂_entries plain (tallies reached'.collected) mem).imp
  intro e e' agree
  exact sameBucket_of_agrees read staged agree.1 agree.2

/-- A call to commit waits for a background commit, and a document is retracted that was never added. -/
theorem batching_unseen_unmatched_retraction :
    let q : Query := .appliedTo (.countUniqueValues "u" "U") (.alone (.brokenDownBy "a" "A"))
    let r : Request := {
      query := ⟨"q.json", .ok "[\"CountUniqueValues\", \"u\", \"U\", [\"BrokenDownBy\", \"a\", \"A\"]]"⟩
      events := ⟨"e.jsonl", .ok "\x7b\"a\": \"x\", \"u\": 1\x7d"⟩
      retract? := some ⟨"t.jsonl", .ok "\x7b\"a\": \"x\", \"u\": 2\x7d"⟩
      config? := some ⟨"c.toml", .ok "commit_threshold = 1"⟩ }
    let r' : Request := { r with config? := some ⟨"d.toml", .ok "commit_threshold = 0\ncommit_workers = 2"⟩ }
    let d : Document := ⟨[("a", .text "x"), ("u", .int 1)]⟩
    let e : Document := ⟨[("a", .text "x"), ("u", .int 2)]⟩
    let schedule : Floor.Schedule := [(0, 0), (0, 0), (4, 0), (4, 0), (1, 0)] ++ List.replicate 7 (4, 0) ++
      [(1, 0), (1, 0), (2, 0), (2, 0)] ++ List.replicate 7 (3, 0)
    ∃ a w g entries entries',
      (openNamed { commitThreshold := 1 } aggregationName q : Action Report Unit Aggregation).run () {} =
        (.ok a, (), w) ∧
      (Floor.start (a.ingestor, w) (calls [d] (some [e]))).inTurn 4 schedule = true ∧
      (Floor.start (a.ingestor, w) (calls [d] (some [e]))).run? schedule = some g ∧ g.returned 4 = true ∧
      told ((answer none).run { a with ingestor := g.ingestor } g.world).1 = .ok (rows entries) ∧
      run r' = .ok (rows entries') ∧ List.Forall₂ (SameBucket q) entries entries' := by
  intro q r r' d e schedule
  let p := Pipeline.ofVerbs [.brokenDownBy "a" "A", .countUniqueValues "u" "U"]
  have compiled : q.compile = .ok p := rfl
  have outputs : q.OutputsApart := ⟨by decide, by decide⟩
  have query : readQuery r.query = .ok q := by cbv
  have events : readEvents r.events = .ok [d] := by cbv
  have retracted : r.retract?.mapM readEvents = .ok (some [e]) := by cbv
  have reads : r.Reads { commitThreshold := 1 } q none [d] (some [e]) :=
    ⟨by cbv, query, rfl, events, retracted⟩
  have reads' : r'.Reads { commitThreshold := 0, commitWorkers := 2 } q none [d] (some [e]) :=
    ⟨by cbv, query, rfl, events, retracted⟩
  let a : Aggregation := ⟨aggregationName, p, {
    sites := p.stages.zipIdx.map fun s => ⟨s.1, s.2 + 1⟩
    queues := p.stages.map fun _ => {}
    config := { commitThreshold := 1 } }⟩
  let w : World := {
    calls := 2
    store := { scopes := [{}, { place := some (0, .named "cli"), depth := 1 },
      { place := some (1, .named "chain"), depth := 2 }] } }
  -- The tallies have the second scope.
  have opened : (openNamed { commitThreshold := 1 } aggregationName q : Action Report Unit Aggregation).run () {} =
      (.ok a, (), w) := rfl
  let f := Floor.start (a.ingestor, w) (calls [d] (some [e]))
  have turns : f.inTurn 4 schedule = true := by decide +kernel
  have returns : (f.run? schedule).any (Floor.returned 4) = true := by decide +kernel
  obtain ⟨g, ran, returned⟩ := (Option.any_eq_true _ _).1 returns
  have printed : Prints r _ := .beside (.intro reads opened turns ran) returned
  have same := batching_unseen reads reads' rfl (by decide) compiled outputs (by decide) (by decide) printed .alone
  obtain ⟨entries, entries', rows, rows', buckets⟩ := same.rows (answerable_none p)
  exact ⟨a, w, g, entries, entries', opened, turns, ran, returned, rows, rows', buckets⟩

end CommandLine

end Rollup
