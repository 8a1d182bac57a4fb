import Rollup.Proofs.Aggregation.Log

/-!
# Sessions of an aggregation

A session is an aggregation with the world it lives in.  Where no access fails and only the caller
commits, every call takes the ledger along (`Tracked.step`): the log has the entries of the ledger, and
the root, but for what is queued, counts its events.
-/

namespace Rollup.Aggregation

open Ingest Ingestor

/-- An aggregation with the world it lives in. -/
abbrev Session := Aggregation × World

namespace Session

/-- A session after a call, whatever the call returned. -/
def step (t : Session) : Op → Session
  | .ingest doc => ((ingest doc : Action Report Aggregation Unit).run t.1 t.2).2
  | .record doc => ((record doc).run t.1 t.2).2
  | .retract marker => ((retract marker).run t.1 t.2).2
  | .commit => (commit.run t.1 t.2).2

/-- A session after calls. -/
def after (t : Session) (ops : List Op) : Session := ops.foldl step t

theorem after_append (t : Session) (ops : List Op) (op : Op) : t.after (ops ++ [op]) = (t.after ops).step op :=
  List.foldl_append

/-- The session of the ingestor. -/
def inner (t : Session) : Ingestor.Session := (t.1.ingestor, t.2)

end Session

/-- What holds of a session after so many calls, whose ledger is this one. -/
structure Tracked (verbs : List Verb) (root : Site) (behindSites : List Site) (calls : Nat) (q : Queues) (l : Ledger)
    (t : Session) : Prop where
  sound : Sound verbs root behindSites q t.inner
  never : t.2.plan = .never
  manual : t.1.ingestor.config.autoCommitDisabled = true
  balanced : Balanced root.stage q (t.2.store.buckets root.scope) l
  filed : Filed root.scope (root :: behindSites) l t.2.store
  load_le : Ingest.load (t.2.store.buckets root.scope) q ≤ 2 * calls

/-! ## Documents that are queued -/

section Queue

variable {ε : Type} {verbs : List Verb} {root : Site} {behindSites : List Site} {q : Queues}

/-- A document that is queued changes nothing but the queues of the root. -/
theorem run_push {a : Aggregation} {w : World} (sound : Sound verbs root behindSites q (a.ingestor, w))
    (manual : a.ingestor.config.autoCommitDisabled = true) (phase : Phase) (doc : Document) :
    ∃ a' w', (onIngestor (Ingestor.push phase doc) : Action ε Aggregation Unit).run a w = (.ok (), a', w') ∧
      Sound verbs root behindSites ((root.stage.map? doc).elim q (q.push · phase)) (a'.ingestor, w') ∧
      w'.plan = w.plan ∧ w'.store = w.store ∧ a'.ingestor.config = a.ingestor.config := by
  obtain ⟨⟨i, w'⟩, ran, sound', plan, store, config⟩ := sound.push_of_manual (ε := ε) manual phase doc
  refine ⟨{ a with ingestor := i }, w', ?_, sound', plan, store, config⟩
  rw [onIngestor, Action.run_zoom, ran]

end Queue

namespace Tracked

variable {verbs : List Verb} {root : Site} {behindSites : List Site} {calls : Nat} {q : Queues} {l : Ledger}
  {t : Session} (tracked : Tracked verbs root behindSites calls q l t)

include tracked

theorem ingest (d : Document) :
    Tracked verbs root behindSites (calls + 1) ((root.stage.map? d).elim q (q.push · .add))
      (l.enter root.stage.key? (.ingest d)) (t.step (.ingest d)) := by
  obtain ⟨a, w, ran, sound, plan, store, config⟩ :=
    run_push (ε := Report) tracked.sound tracked.manual .add d
  have ended : t.step (.ingest d) = (a, w) := congrArg Prod.snd ran
  have load := load_elim_push (t.2.store.buckets root.scope) q .add (root.stage.map? d)
  have load_le := tracked.load_le
  rw [ended]
  exact {
    sound
    never := plan.trans tracked.never
    manual := config ▸ tracked.manual
    balanced := by
      rw [store]
      exact tracked.balanced.add (Ledger.events_ingest d) rfl rfl
    filed := by
      rw [store]
      exact tracked.filed.of_places rfl tracked.filed.entries tracked.filed.marker
    load_le := by
      rw [store]
      omega }

theorem record (kept : l.Kept) (left : l.next < 2 ^ 63) (d : Document) :
    Tracked verbs root behindSites (calls + 1) ((root.stage.map? d).elim q (q.push · .add))
      (l.enter root.stage.key? (.record d)) (t.step (.record d)) := by
  obtain ⟨s', appended, filed, beside⟩ := tracked.filed.append root.stage.key? left d
  have above : t.1.ingestor.rootScope = root.scope := tracked.sound.rootScope_eq
  rw [← above] at appended
  obtain ⟨w₁, never, rfl, logged⟩ := run_record t.1 tracked.never appended
  obtain ⟨a, w, ran, sound, plan, store, config⟩ := run_push (ε := Report)
    (tracked.sound.beside (never.trans tracked.never.symm) beside) tracked.manual .add d
  have ended : t.step (.record d) = (a, w) := by
    have queued : (Aggregation.ingest d : Action Report Aggregation Unit).run t.1 w₁ = (.ok (), a, w) := ran
    rw [Session.step, logged, Action.run_bind, queued]
    rfl
  -- The log is no scope of a stage, so appending to it leaves the buckets of the root as they were.
  have same := beside.same root List.mem_cons_self
  have load := load_elim_push (t.2.store.buckets root.scope) q .add (root.stage.map? d)
  have load_le := tracked.load_le
  rw [ended]
  exact {
    sound
    never := plan.trans never
    manual := config ▸ tracked.manual
    balanced := by
      rw [store, same]
      exact tracked.balanced.add (Ledger.events_record kept left d) rfl rfl
    filed := store ▸ filed
    load_le := by
      rw [store, same]
      omega }

/-- Opening the log changes nothing. -/
theorem openLog {w' : World} (never : w'.plan = .never)
    (store : w'.store = (t.2.store.openChild root.scope (.named logName)).2) :
    Tracked verbs root behindSites calls q l (t.1, w') := by
  have beside : Beside (root :: behindSites) t.2.store w'.store := store ▸ Filed.beside_openChild t.2.store
  have same := beside.same root List.mem_cons_self
  exact {
    sound := tracked.sound.beside (never.trans tracked.never.symm) beside
    never
    manual := tracked.manual
    balanced := by
      rw [same]
      exact tracked.balanced
    filed := by
      rw [store]
      exact tracked.filed.openLog
    load_le := by
      rw [same]
      exact tracked.load_le }

/-- An event in an open log is queued for retraction and then dropped. -/
theorem drop (kept : l.Kept) {marker : Int64} {d : Document} (found : l.logged.get? (.numbered marker) = some d)
    (opened : logScope root.scope t.2.store < t.2.store.scopes.length) :
    ∃ a w, (uningest d : Action Report Aggregation Unit).run t.1 t.2 = (.ok (), a, w) ∧ w.plan = .never ∧
      Tracked verbs root behindSites (calls + 1) ((root.stage.map? d).elim q (q.push · .retract))
        (l.enter root.stage.key? (.retract marker))
        (a, { w with
          calls := w.calls + 1
          store := w.store.set (logScope root.scope t.2.store) (.numbered marker) none }) := by
  obtain ⟨a, w, ran, sound, plan, store, config⟩ :=
    run_push (ε := Report) tracked.sound tracked.manual .retract d
  obtain ⟨filed, beside⟩ := tracked.filed.erase root.stage.key? found opened
  rw [← store] at filed beside
  have same := beside.same root List.mem_cons_self
  have load := load_elim_push (t.2.store.buckets root.scope) q .retract (root.stage.map? d)
  have load_le := tracked.load_le
  refine ⟨a, w, ran, plan.trans tracked.never, ?_⟩
  rw [← store]
  exact {
    sound := sound.beside rfl beside
    never := plan.trans tracked.never
    manual := config ▸ tracked.manual
    balanced := by
      rw [same, store]
      exact tracked.balanced.retract kept found
    filed
    load_le := by
      rw [same, store]
      omega }

theorem retract (kept : l.Kept) (marker : Int64) :
    ∃ q', Tracked verbs root behindSites (calls + 1) q' (l.enter root.stage.key? (.retract marker))
      (t.step (.retract marker)) := by
  have above : t.1.ingestor.rootScope = root.scope := tracked.sound.rootScope_eq
  obtain ⟨w₁, never, store, ran⟩ := run_retract t.1 tracked.never marker
  rw [above, tracked.filed.entries] at ran
  rw [above] at store
  have tracked₁ := tracked.openLog never store
  cases found : l.logged.get? (.numbered marker) with
  -- What is not in the ledger is not in the log either, so nothing is retracted.
  | none =>
    rw [found] at ran
    have ended : t.step (.retract marker) = (t.1, w₁) := congrArg Prod.snd ran
    have unchanged : l.enter root.stage.key? (.retract marker) = l := by simp only [Ledger.enter, found]
    have load_le := tracked₁.load_le
    rw [ended, unchanged]
    exact ⟨q, { tracked₁ with load_le := by omega }⟩
  | some d =>
    rw [found] at ran
    have here : logScope root.scope w₁.store = logScope root.scope t.2.store := by
      rw [store, Filed.logScope_openChild]
    have opened : logScope root.scope w₁.store < w₁.store.scopes.length := by
      rw [here, store]
      exact t.2.store.openChild_lt root.scope (.named logName)
    obtain ⟨a, w, queued, never', tracked'⟩ := tracked₁.drop kept found opened
    have erased := run_set_never a (logScope root.scope t.2.store) never' (.numbered marker) none
    rw [here] at tracked'
    have ended : t.step (.retract marker) =
        (a, { w with
          calls := w.calls + 1
          store := w.store.set (logScope root.scope t.2.store) (.numbered marker) none }) := by
      rw [Session.step, ran, Action.run_bind, queued]
      simp only [Action.run_bind, run_reported erased]
      rfl
    rw [ended]
    exact ⟨_, tracked'⟩

theorem commit (small : calls < 2 ^ 51) :
    Tracked verbs root behindSites (calls + 1) {} (l.enter root.stage.key? .commit) (t.step .commit) := by
  have load_le := tracked.load_le
  have load_eq : t.inner.load = Ingest.load (t.2.store.buckets root.scope) q := tracked.sound.load_eq
  obtain ⟨r, first, second, retracted, added, q', ⟨i, w⟩, ran, sound, lighter, plan, cycled, -, spared⟩ :=
    tracked.sound.commit (by rw [load_eq]; omega)
  obtain ⟨rfl, rfl, whole_first, whole_second⟩ := spared (tracked.never ▸ FaultPlan.never_spares _)
  have ended : t.step .commit = ({ t.1 with ingestor := i }, w) := by
    have committed : (onIngestor Ingestor.commit).run t.1 t.2 = (.ok (), { t.1 with ingestor := i }, w) := by
      rw [onIngestor, Action.run_zoom]
      exact congrArg (fun r => (r.1, { t.1 with ingestor := r.2.1 }, r.2.2)) ran
    exact congrArg Prod.snd (run_reported committed)
  have config : i.config = t.1.ingestor.config := (congrArg (fun r => r.2.1.config) ran).symm
  have load_after : Session.load (i, w) = Ingest.load (w.store.buckets root.scope) {} := sound.load_eq
  -- No access fails, so the cycle works off the queue of the root to its end.
  have buckets := tracked.sound.standing.buckets_of_cycled cycled
  have log : logScope root.scope t.2.store ∉ (root :: behindSites).map Site.scope := by
    intro mem
    obtain ⟨site, listed, same⟩ := List.mem_map.1 mem
    exact tracked.filed.apart site listed same
  rw [ended]
  exact {
    sound
    never := plan.trans tracked.never
    manual := config ▸ tracked.manual
    balanced := by
      show Balanced root.stage {} (w.store.buckets root.scope) _
      rw [buckets]
      apply tracked.balanced.cycle tracked.sound.standing.grounded whole_first whole_second
      show Ingest.load (t.2.store.buckets root.scope) q < 2 ^ 53
      omega
    filed := by
      apply tracked.filed.of_places cycled.sameTree.places
      case entries => exact (cycled.buckets_of_not_mem log).trans tracked.filed.entries
      case marker => exact cycled.sameTree.marker.trans tracked.filed.marker
    load_le := by
      show Ingest.load (w.store.buckets root.scope) {} ≤ _
      omega }

/-- Every call takes the ledger along; a commit works off everything. -/
theorem step (kept : l.Kept) (left : l.next < 2 ^ 63) (small : calls < 2 ^ 51) (op : Op) :
    ∃ q', Tracked verbs root behindSites (calls + 1) q' (l.enter root.stage.key? op) (t.step op) ∧
      (op = .commit → q' = {}) := by
  cases op with
  | ingest d => exact ⟨_, tracked.ingest d, fun same => by cases same⟩
  | record d => exact ⟨_, tracked.record kept left d, fun same => by cases same⟩
  | retract marker =>
    obtain ⟨q', tracked'⟩ := tracked.retract kept marker
    exact ⟨q', tracked', fun same => by cases same⟩
  | commit => exact ⟨{}, tracked.commit small, fun _ => rfl⟩

end Tracked

section Runs

variable {verbs : List Verb} {root : Site} {behindSites : List Site} {q : Queues} {t : Session} {ops : List Op}

theorem Tracked.append
    (tracked : Tracked verbs root behindSites ops.length q (.ofOps root.stage.key? ops) (t.after ops))
    (short : ops.length < 2 ^ 51) (op : Op) :
    ∃ q', Tracked verbs root behindSites (ops ++ [op]).length q' (.ofOps root.stage.key? (ops ++ [op]))
      (t.after (ops ++ [op])) ∧ (op = .commit → q' = {}) := by
  have next_le := Ledger.next_ofOps_le root.stage.key? ops
  obtain ⟨kept, -⟩ := Ledger.kept_ofOps root.stage.key? (show ops.length < 2 ^ 63 by omega)
  rw [Ledger.ofOps_append, Session.after_append, List.length_append]
  exact tracked.step kept (by omega) short op

variable (start : Tracked verbs root behindSites 0 {} {} t)

include start

/-- Calls on a new aggregation take the ledger along. -/
theorem Tracked.after (short : ops.length < 2 ^ 51) :
    ∃ q, Tracked verbs root behindSites ops.length q (.ofOps root.stage.key? ops) (t.after ops) := by
  induction ops using List.reverseRecOn with
  | nil => exact ⟨{}, start⟩
  | append_singleton ops op ih =>
    rw [List.length_append, List.length_singleton] at short
    obtain ⟨q, tracked⟩ := ih (by omega)
    obtain ⟨q', tracked', -⟩ := tracked.append (by omega) op
    exact ⟨q', tracked'⟩

/-- Calls on a new aggregation that end in a commit leave nothing queued. -/
theorem Tracked.after_commit (short : ops.length < 2 ^ 51) :
    Tracked verbs root behindSites (ops ++ [Op.commit]).length {} (.ofOps root.stage.key? (ops ++ [.commit]))
      (t.after (ops ++ [.commit])) := by
  obtain ⟨q, tracked⟩ := start.after short
  obtain ⟨q', tracked', drained⟩ := tracked.append short .commit
  rw [drained rfl] at tracked'
  exact tracked'

end Runs

/-! ## Opening -/

theorem openChild_fresh (name : Key) :
    ({} : Store).openChild Store.root name =
      (1, { scopes := [{}, { place := some (Store.root, name), depth := 1 }] }) := rfl

/-- A fresh store in which a scope was opened below the first. -/
def belowRoot (name : String) : World := { calls := 1, store := (({} : Store).openChild Store.root (.named name)).2 }

theorem belowRoot_spec (name : String) :
    (∀ id, (belowRoot name).store.buckets id = .empty) ∧ (belowRoot name).store.Nested ∧
      1 < (belowRoot name).store.scopes.length := by
  refine ⟨fun id => ?_, ?_, Nat.lt_succ_self 1⟩
  · exact (Store.buckets_openChild {} Store.root (.named name) id).trans (Store.buckets_fresh id)
  · obtain ⟨child, s', opened, -, -, -, nested, -⟩ :=
      Store.openChild_eq Store.nested_fresh (show Store.root < 1 from Nat.zero_lt_one) (.named name)
    simpa [belowRoot, opened] using nested

/-- An aggregation is opened with the ingestor in that scope. -/
theorem run_openNamed_of_openAt {q : Query} {p : Pipeline} (compiled : q.compile = .ok p) {config : Config}
    (valid : config.validate = .ok ()) (chained : config.chainStore ≠ logName) {name : String} {i : Ingestor}
    {w : World} (ran : (openAt 1 p config : Action Error Unit Ingestor).run () (belowRoot name) = (.ok i, (), w)) :
    (openNamed config name q : Action Report Unit Aggregation).run () {} =
      (.ok { name, pipeline := p, ingestor := i }, (), w) := by
  have opened : (openIngestor config name p : Action Error Unit Ingestor).run () {} = (.ok i, (), w) := by
    rw [openIngestor, Action.run_bind, run_openChild _ _ _ FaultPlan.never_rootOnly.mild.opens]
    exact ran
  exact run_openNamed_of_openIngestor valid chained compiled opened

/-- Below the first scope of a fresh store there is no log yet. -/
theorem place_fresh {name : Key} {id above : ScopeId} {other : Key}
    (place : ((({} : Store).openChild Store.root name).2.scope id).place = some (above, other)) :
    above = Store.root := by
  rw [openChild_fresh] at place
  match id with
  | 0 => cases place
  | 1 =>
    cases place
    rfl
  | id + 2 => cases place

theorem balanced_empty (root : Stage) : Balanced root {} .empty {} where
  count key := by rfl
  stored key := by simp [domain, SortedMap.empty, SortedMap.toList]
  waiting := rfl

/-- A new aggregation starts with an empty ledger. -/
theorem run_openNamed {q : Query} {verbs : List Verb} (compiled : q.compile = .ok (.ofVerbs verbs))
    (columns : ColumnsApart verbs) {config : Config} (valid : config.validate = .ok ())
    (chained : config.chainStore ≠ logName) (manual : config.autoCommitDisabled = true) (name : String) :
    ∃ t : Session, (openNamed config name q : Action Report Unit Aggregation).run () {} = (.ok t.1, (), t.2) ∧
      t.1.ingestor.sites.map Site.stage = (Pipeline.ofVerbs verbs).stages ∧
      ∃ root behindSites, Tracked (Pipeline.composition verbs) root behindSites 0 {} {} t := by
  have mild : (belowRoot name).plan.Mild := FaultPlan.never_rootOnly.mild
  obtain ⟨empty, nested, here⟩ := belowRoot_spec name
  obtain ⟨⟨i, w'⟩, ran, stages, config_eq, plan, root, behindSites, scope, sound, empty'⟩ :=
    opened_at columns valid nested here empty mild fun other _ => FaultPlan.never_spares other
  have grown := grown_openAt _ valid mild.opens ran
  refine ⟨({ name, pipeline := .ofVerbs verbs, ingestor := i }, w'), run_openNamed_of_openAt compiled valid chained ran,
    stages, root, behindSites, ?_⟩
  -- No scope hangs below that of the root but those of chained stages.
  have unplaced : ∀ other, (w'.store.scope other).place ≠ some (root.scope, .named logName) := by
    intro other place
    rcases grown.place other _ _ place with before | same
    · have top := place_fresh before
      rw [scope] at top
      cases top
    · exact chained (by simpa [Key.named] using same.symm)
  exact {
    sound
    never := plan
    manual := config_eq ▸ manual
    balanced := by
      show Balanced root.stage {} (w'.store.buckets root.scope) {}
      rw [empty']
      exact balanced_empty root.stage
    filed := {
      entries := empty' _
      marker := grown.marker
      apart := fun site mem => by
        have behind : logScope root.scope w'.store = w'.store.scopes.length := Store.openChild_of_unplaced unplaced
        show site.scope ≠ logScope root.scope w'.store
        rw [behind]
        exact Nat.ne_of_lt (sound.standing.placed.open_ site mem) }
    load_le := by
      show Ingest.load (w'.store.buckets root.scope) {} ≤ 0
      rw [empty']
      exact Nat.le_refl _ }

end Rollup.Aggregation
