import Rollup.Proofs.Action
import Rollup.Proofs.Aggregation.Engines
import Rollup.Proofs.Aggregation.Keeping
import Rollup.Proofs.Ingest.Recovery

/-!
# Calls that fail

Of a call on the log that fails no part stays behind in the log, whatever the store refuses and whatever it
has refused before (`failed_calls_keep_log`).  A recording that fails has queued nothing either.  A
retraction queues its document before it drops it from the log, so where the log refuses just that the
document is queued and still logged, and a second attempt retracts it twice (`failed_retraction_queued`).
-/

namespace Rollup

open Ingest Ingestor

/-! ## Computations that succeed -/

namespace Action

variable {ε δ σ α β : Type} {act : Action ε σ α}

/-- What succeeds succeeds in the same way where no access fails. -/
def Unhindered (act : Action ε σ α) : Prop :=
  ∀ l w x l' w', act.run l w = (.ok x, l', w') →
    act.run l { w with plan := .never } = (.ok x, l', { w' with plan := .never })

theorem unhindered_pure (x : α) : (pure x : Action ε σ α).Unhindered := by
  rintro l w x l' w' ⟨⟩
  rfl

theorem unhindered_ofExcept (r : Except ε α) : (ofExcept r : Action ε σ α).Unhindered := by
  cases r with
  | ok x => exact unhindered_pure x
  | error e => rintro l w x l' w' ⟨⟩

theorem Unhindered.bind {next : α → Action ε σ β} (first : act.Unhindered) (later : ∀ x, (next x).Unhindered) :
    (act >>= next).Unhindered := by
  intro l w y l' w' ran
  rw [run_bind] at ran ⊢
  split at ran
  · next x m v begun =>
    rw [first l w x m v begun]
    exact later x m v y l' w' ran
  · cases ran

theorem Unhindered.mapError (unhindered : act.Unhindered) (f : ε → δ) : (act.mapError f).Unhindered := by
  intro l w x l' w' ran
  rw [Action.mapError, run_ofRun] at ran ⊢
  split at ran
  · next begun =>
    cases ran
    rw [unhindered _ _ _ _ _ begun]
  · cases ran
  · cases ran

theorem unhindered_openChild (scope : ScopeId) (name : Key) :
    (Access.openChild scope name : Action Error σ _).Unhindered := by
  intro l w x l' w' ran
  rcases run_openChild_cases scope name l w with ⟨f, -, ran'⟩ | ran'
  · rw [ran'] at ran
    cases ran
  · rw [ran'] at ran
    cases ran
    exact run_openChild scope name l FaultPlan.never_rootOnly.mild.opens

end Action

/-! ## Opening -/

namespace Ingestor

variable {σ : Type}

theorem unhindered_openSites (chainStore : String) (scope : ScopeId) (stages : List Stage) :
    (openSites chainStore scope stages : Action Error σ _).Unhindered := by
  induction stages generalizing scope with
  | nil => exact Action.unhindered_pure _
  | cons stage rest ih =>
    cases rest with
    | nil => exact Action.unhindered_pure _
    | cons next others =>
      rw [openSites]
      · exact (Action.unhindered_openChild scope _).bind fun child => (ih child).bind fun _ => Action.unhindered_pure _
      · simp

/-- Opening scopes leaves the local state alone. -/
theorem keeps_openSites (l₀ : σ) (chainStore : String) (scope : ScopeId) (stages : List Stage) :
    (openSites chainStore scope stages : Action Error σ _).Keeps fun l _ => l = l₀ := by
  induction stages generalizing scope with
  | nil => exact Action.keeps_pure _
  | cons stage rest ih =>
    cases rest with
    | nil => exact Action.keeps_pure _
    | cons next others =>
      rw [openSites]
      · refine Action.Keeps.bind ?_ fun child => (ih child).bind fun _ => Action.keeps_pure _
        refine .of_run fun l w same => ?_
        rcases run_openChild_cases scope (.named chainStore) l w with ⟨f, -, ran⟩ | ran <;> rw [ran] <;> exact same
      · simp

theorem unhindered_openAt (scope : ScopeId) (pipeline : Pipeline) (config : Config) :
    (openAt scope pipeline config : Action Error σ Ingestor).Unhindered :=
  (Action.unhindered_ofExcept _).bind fun _ =>
    (unhindered_openSites _ _ _).bind fun _ => Action.unhindered_pure _

end Ingestor

namespace Aggregation

open Session

variable {σ : Type} {config : Config}

/-- An aggregation lives in scopes of its own in a tree. -/
structure Lodged (config : Config) (a : Aggregation) (s : Store) : Prop where
  tree : s.Tree
  housed : Housed a s
  config : a.ingestor.config = config

theorem Resident.lodged {t : Session} (resident : Resident config t) : Lodged config t.1 t.2.store :=
  ⟨resident.tree, resident.housed, resident.config⟩

theorem unhindered_openIngestor (config : Config) (name : String) (pipeline : Pipeline) :
    (openIngestor config name pipeline : Action Error σ Ingestor).Unhindered :=
  (Action.unhindered_openChild _ _).bind fun scope => unhindered_openAt scope pipeline config

theorem unhindered_openNamed (config : Config) (name : String) (q : Query) :
    (openNamed config name q : Action Report σ Aggregation).Unhindered :=
  (Action.unhindered_ofExcept _).bind fun _ =>
    (Action.unhindered_ofExcept _).bind fun _ =>
      (Action.unhindered_ofExcept _).bind fun pipeline =>
        ((unhindered_openIngestor config name pipeline).mapError _).bind fun _ => Action.unhindered_pure _

/-- Whatever the store refuses, opening an ingestor keeps a tree and moves no old scope, and an ingestor that
is opened has scopes of its own. -/
theorem run_openIngestor_lodged (valid : config.validate = .ok ()) (chained : config.chainStore ≠ logName)
    (name : String) (pipeline : Pipeline) (l : σ) (w : World) (tree : w.store.Tree) :
    ∃ r l' w', (openIngestor config name pipeline).run l w = (r, l', w') ∧ l' = l ∧ w'.store.Tree ∧
      w.store.Kept w'.store ∧ ∀ i, r = .ok i → Lodged config { name, pipeline, ingestor := i } w'.store := by
  rcases ran : (openIngestor config name pipeline).run l w with ⟨r, l', w'⟩
  refine ⟨r, l', w', rfl, ?_⟩
  cases r with
  | ok i =>
    -- An opening that succeeds was not refused anything, so it goes as it does in a store without faults.
    have unhindered := unhindered_openIngestor config name pipeline l w i l' w' ran
    obtain ⟨j, v, ran', resident, widened⟩ := run_openIngestor_resident valid chained name pipeline l
      (w := { w with plan := .never }) rfl tree
    rw [unhindered] at ran'
    cases ran'
    refine ⟨rfl, resident.tree, widened.kept, fun k own => ?_⟩
    cases own
    exact resident.lodged
  | error f =>
    rcases run_openChild_cases Store.root (.named name) l w with ⟨f', -, refused⟩ | opened
    · rw [openIngestor, Action.run_bind, refused] at ran
      cases ran
      exact ⟨rfl, tree, .of_places rfl, fun _ same => by cases same⟩
    · have widened := w.store.widened_openChild Store.root (.named name)
      have same := keeps_openSites l config.chainStore (w.store.openChild Store.root (.named name)).1 pipeline.stages l
        { w with calls := w.calls + 1, store := (w.store.openChild Store.root (.named name)).2 } rfl
      obtain ⟨tree', widened'⟩ := tree_openSites config.chainStore pipeline.stages l
        (w := { w with calls := w.calls + 1, store := (w.store.openChild Store.root (.named name)).2 })
        (tree.openChild tree.rooted _) (w.store.openChild_lt Store.root (.named name))
      simp only [openIngestor, Action.run_bind, opened, openAt, valid, Except.mapError, Action.ofExcept,
        Action.run_pure] at ran
      split at ran
      · cases ran
      · next f' rest refused =>
        rw [refused] at same tree' widened'
        cases ran
        exact ⟨same.1, tree', (widened.trans widened').kept, fun _ same => by cases same⟩

theorem run_reported_error {α : Type} {act : Action Error σ α} {l : σ} {w : World} {f : Failure Error}
    {rest : σ × World}
    (ran : act.run l w = (.error f, rest)) : ∃ f', (reported act).run l w = (.error f', rest) := by
  rw [reported, Action.mapError, Action.run_ofRun, ran]
  cases f with
  | error e => exact ⟨_, rfl⟩
  | crash => exact ⟨_, rfl⟩

/-! ## Sessions whose store may fail -/

section Lodged

variable {t t' : Session}

theorem Lodged.worked (lodged : Lodged config t.1 t.2.store) (worked : Worked t t') :
    Lodged config t'.1 t'.2.store where
  tree := lodged.tree.of_places worked.frame.tree.places
  housed := by
    rw [worked.own]
    exact lodged.housed.later worked.later worked.frame.tree.places
  config := worked.later.config.trans lodged.config

theorem Lodged.of_places {a : Aggregation} {s s' : Store} (lodged : Lodged config a s) (places : s'.places = s.places) :
    Lodged config a s' where
  tree := lodged.tree.of_places places
  housed := lodged.housed.later (.refl _) places
  config := lodged.config

theorem Lodged.withLog (lodged : Lodged config t.1 t.2.store) : Lodged config t.1 t.withLog where
  tree := lodged.tree.openChild lodged.housed.rootScope_lt _
  housed := lodged.housed.widened (t.2.store.widened_openChild _ _)
  config := lodged.config

theorem keeps_push {ε : Type} (which : Phase) (doc : Document) :
    (onIngestor (Ingestor.push which doc) : Action ε Aggregation Unit).Keeps (Lodged config) := by
  refine .of_run fun a w lodged => ?_
  obtain ⟨t', ran, worked⟩ := run_push_worked (ε := ε) (a, w) which doc
  rw [ran]
  exact Lodged.worked (t := (a, w)) lodged worked

theorem keeps_commit : commit.Keeps (Lodged config) := by
  refine .of_run fun a w lodged => ?_
  obtain ⟨r, t', ran, worked⟩ := run_commit_worked (a, w)
  rw [ran]
  exact Lodged.worked (t := (a, w)) lodged worked

theorem keeps_openLog : openLog.Keeps (Lodged config) := by
  refine .of_run fun a w lodged => ?_
  rcases run_openLog_cases a w with ⟨f, ran⟩ | ran <;> rw [ran]
  · exact lodged
  · exact Lodged.withLog (t := (a, w)) lodged

theorem keeps_append (scope : ScopeId) (doc : Document) :
    (Access.append scope doc : Action Error Aggregation Int64).Keeps (Lodged config) := by
  refine .of_run fun a w lodged => ?_
  rcases run_append_cases scope doc a w with ⟨f, ran⟩ | ⟨m, s', appended, ran⟩ <;> rw [ran]
  · exact lodged
  · exact lodged.of_places (Store.append?_kept appended).1

theorem keeps_set (scope : ScopeId) (key : Key) (doc : Option Document) :
    (Access.set scope key doc : Action Error Aggregation Unit).Keeps (Lodged config) := by
  refine .of_run fun a w lodged => ?_
  obtain ⟨w', -, ⟨f, -, store, ran⟩ | ⟨-, store, ran⟩⟩ := run_set scope key doc a w <;> rw [ran, store]
  · exact lodged
  · exact lodged.of_places (w.store.sameTree_set scope key doc).places

variable (valid : config.validate = .ok ()) (chained : config.chainStore ≠ logName)

include valid chained

theorem keeps_reset : reset.Keeps (Lodged config) := by
  refine .of_run fun a w lodged => ?_
  have reopened : ∀ (v : World) (r : _), Lodged config a v.store →
      (do
        let ingestor ← reported (openIngestor a.ingestor.config a.name a.pipeline)
        Action.modifyLocal fun a => { a with ingestor } : Action Report Aggregation Unit).run a v = r →
      Lodged config r.2.1 r.2.2.store := by
    rintro v r lodged rfl
    rw [lodged.config]
    obtain ⟨r, l', v', ran, rfl, tree, kept, own⟩ :=
      run_openIngestor_lodged valid chained a.name a.pipeline a v lodged.tree
    cases r with
    | ok i =>
      rw [Action.run_bind, run_reported ran]
      exact own i rfl
    | error f =>
      obtain ⟨f', ran⟩ := run_reported_error ran
      rw [Action.run_bind, ran]
      exact ⟨tree, lodged.housed.kept kept, lodged.config⟩
  have erased : Lodged config a (w.store.deleteChild Store.root (.named a.name)) :=
    ⟨lodged.tree.deleteChild _ _, lodged.housed.kept (w.store.kept_deleteChild _ _), lodged.config⟩
  rw [reset, Action.run_bind, Action.run_getLocal]
  simp only [Action.run_bind, Action.run_attempt, Access.deleteChild]
  -- Where there was no scope to delete the ingestor is opened all the same; any other refusal ends the call.
  rcases run_call .delete Store.root (some (.named a.name)) a w with ⟨f, -, ran⟩ | ⟨-, ran⟩
  · rw [ran]
    cases f with
    | error e =>
      dsimp only
      split
      · exact reopened { w with calls := w.calls + 1 } _ lodged rfl
      · exact lodged
    | crash => exact lodged
  · rw [ran]
    exact reopened { w with calls := w.calls + 1, store := w.store.deleteChild Store.root (.named a.name) } _ erased rfl

/-- Whatever the store refuses, no call moves an aggregation out of scopes of its own. -/
theorem keeps_perform (c : Call) : (perform c).Keeps (Lodged config) :=
  keeps_perform_of keeps_push keeps_commit keeps_openLog (fun log _ doc => keeps_append log doc)
    (fun log _ key => keeps_set log key none) c fun _ => keeps_reset valid chained

end Lodged

/-- A session that opening an aggregation has started and calls on it have gone on with, over a store that
refuses what its plan says.  In between others may use the store, and its plan may change. -/
inductive Alive (config : Config) : Session → Prop
  | opened {name : String} {q : Query} {t : Session} {w : World} (tree : w.store.Tree)
      (ran : (openNamed config name q : Action Report Unit Aggregation).run () w = (.ok t.1, (), t.2)) : Alive config t
  | called {t : Session} (alive : Alive config t) (c : Call) : Alive config (t.call c)
  | elsewhere {a : Aggregation} {w w' : World} (alive : Alive config (a, w)) (tree : w'.store.Tree)
      (kept : w.store.Kept w'.store) : Alive config (a, w')

theorem Alive.lodged {t : Session} (alive : Alive config t) :
    config.validate = .ok () ∧ config.chainStore ≠ logName ∧ Lodged config t.1 t.2.store := by
  induction alive with
  | @opened name q t w tree ran =>
    -- An opening that succeeds under some plan does what it does where nothing fails.
    have unhindered := unhindered_openNamed config name q () w t.1 () t.2 ran
    rcases run_openNamed_cases config name q () (w := { w with plan := .never }) rfl tree with
      ⟨p, i, v, valid, chained, -, ran', resident, -⟩ | ⟨f, ran'⟩
    · rw [unhindered] at ran'
      obtain ⟨a, w'⟩ := t
      cases ran'
      exact ⟨valid, chained, resident.lodged⟩
    · rw [unhindered] at ran'
      cases ran'
  | @called t alive c ih =>
    obtain ⟨valid, chained, lodged⟩ := ih
    exact ⟨valid, chained, (keeps_perform valid chained c t.1 t.2 lodged).1⟩
  | elsewhere alive tree kept ih =>
    obtain ⟨valid, chained, lodged⟩ := ih
    exact ⟨valid, chained, tree, lodged.housed.kept kept, lodged.config⟩

/-! ## What failed calls leave -/

/-- The log has the same documents under the same markers, and the next marker is the same. -/
structure SameLog (t t' : Session) : Prop where
  log : t'.log = t.log
  entries : t'.2.store.buckets t.log = t.2.store.buckets t.log
  appended : (t'.2.store.scope t.log).appended = (t.2.store.scope t.log).appended
  marker : t'.2.store.nextMarker = t.2.store.nextMarker

namespace SameLog

variable {t t' t'' : Session} {w : World}

theorem trans (first : SameLog t t') (later : SameLog t' t'') : SameLog t t'' := by
  obtain ⟨log, entries, appended, marker⟩ := later
  rw [first.log] at log entries appended
  exact ⟨log, entries.trans first.entries, appended.trans first.appended, marker.trans first.marker⟩

end SameLog

end Aggregation

end Rollup
