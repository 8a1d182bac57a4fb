import Rollup.Proofs.Aggregation.Quarters
import Rollup.Proofs.Aggregation.Sessions
import Rollup.Proofs.Ingest.Footprints

/-!
# Calls on an aggregation

A session stays `Resident` under every call: its sites are scopes of their own in a tree, apart from
its log.  What a call does beyond the work of the ingestor is told call by call (`Session.Does`):
recording appends to the log, retracting drops from it, a replay ingests what was appended after its
marker, and a reset opens everything anew.
-/

namespace Rollup.Aggregation

open Ingest Ingestor

/-- A call on an aggregation. -/
inductive Call
  | ingest (doc : Document)
  | uningest (doc : Document)
  | commit
  | results
  | lookup (values : List Value)
  | queued
  | record (doc : Document)
  | retract (marker : Int64)
  | replay (marker : Int64)
  | reset

/-- What a call returns. -/
inductive Reply
  | done
  | rows (rows : List Row)
  | size (n : Nat)
  | marker (marker : Int64)
  | found (found : Bool)

/-- Makes a call. -/
def perform : Call → Action Report Aggregation Reply
  | .ingest doc => do
    ingest doc
    return .done
  | .uningest doc => do
    uningest doc
    return .done
  | .commit => do
    commit
    return .done
  | .results => return .rows (← results)
  | .lookup values => return .rows (← lookup values)
  | .queued => return .size (← Action.getLocal).queued
  | .record doc => return .marker (← record doc)
  | .retract marker => return .found (← retract marker)
  | .replay marker => return .marker (← replaySince marker)
  | .reset => do
    reset
    return .done

namespace Session

/-- What a call on a session returns. -/
def reply (t : Session) (c : Call) : Except (Failure Report) Reply := ((perform c).run t.1 t.2).1

/-- A session after a call, whatever the call returned. -/
def call (t : Session) (c : Call) : Session := ((perform c).run t.1 t.2).2

/-- A session after calls. -/
def calls (t : Session) (cs : List Call) : Session := cs.foldl call t

/-- The log of a session, whether it has been made or not. -/
def log (t : Session) : ScopeId := logScope t.1.ingestor.rootScope t.2.store

/-- The store of a session with its log. -/
def withLog (t : Session) : Store := (t.2.store.openChild t.1.ingestor.rootScope (.named logName)).2

/-- The ingestor of a session has worked. -/
structure Worked (t t' : Session) : Prop where
  own : t'.1 = { t.1 with ingestor := t'.1.ingestor }
  later : t.1.ingestor.Later t'.1.ingestor
  frame : Frame (t.1.ingestor.sites.map Site.scope) t.2 t'.2

namespace Worked

variable {t t' t'' : Session}

theorem of_eq {w : World} (plan : w.plan = t.2.plan) (store : w.store = t.2.store) : Worked t (t.1, w) :=
  ⟨rfl, .refl _, .of_eq plan store⟩

theorem trans (first : Worked t t') (later : Worked t' t'') : Worked t t'' where
  own := by rw [later.own, first.own]
  later := first.later.trans later.later
  frame := first.frame.trans (by
    rw [← first.later.sites]
    exact later.frame)

end Worked

end Session

open Session

/-- An aggregation in scopes of its own that no access fails. -/
structure Resident (config : Config) (t : Session) : Prop where
  never : t.2.plan = .never
  tree : t.2.store.Tree
  housed : Housed t.1 t.2.store
  config : t.1.ingestor.config = config

namespace Resident

variable {config : Config} {t t' : Session}

theorem of_opened {name : String} {pipeline : Pipeline} {s : Store} {i : Ingestor} {w : World}
    (opened : Opened config pipeline s i w) : Resident config ({ name, pipeline, ingestor := i }, w) :=
  ⟨opened.never, opened.tree, opened.housed name, opened.config⟩

variable (resident : Resident config t)

include resident

theorem worked (worked : Worked t t') : Resident config t' where
  never := worked.frame.plan.trans resident.never
  tree := resident.tree.of_places worked.frame.tree.places
  housed := by
    rw [worked.own]
    exact resident.housed.later worked.later worked.frame.tree.places
  config := worked.later.config.trans resident.config

/-- The log is where it was, with what it had. -/
theorem log_worked (worked : Worked t t') :
    t'.log = t.log ∧ t'.2.store.buckets t.log = t.2.store.buckets t.log ∧
      (t'.2.store.scope t.log).appended = (t.2.store.scope t.log).appended := by
  have root : t'.1.ingestor.rootScope = t.1.ingestor.rootScope := by rw [rootScope, rootScope, worked.later.sites]
  refine ⟨?_, worked.frame.buckets t.log resident.housed.log_not_mem, worked.frame.appended t.log⟩
  rw [Session.log, root]
  exact Store.openChild_congr worked.frame.tree.places _ _

/-- A session stays resident in a store with the same tree. -/
theorem of_places {w : World} (never : w.plan = .never) (places : w.store.places = t.2.store.places) :
    Resident config (t.1, w) where
  never := never
  tree := resident.tree.of_places places
  housed := resident.housed.later (.refl _) places
  config := resident.config

/-- Making the log changes nothing. -/
theorem opens_log {w : World} (never : w.plan = .never) (store : w.store = t.withLog) : Resident config (t.1, w) where
  never := never
  tree := store ▸ resident.tree.openChild resident.housed.rootScope_lt _
  housed := store ▸ resident.housed.widened (t.2.store.widened_openChild _ _)
  config := resident.config

/-- Once it has been made, the log is there and where it was while the ingestor works. -/
theorem log_of_made {w : World} (never : w.plan = .never) (store : w.store = t.withLog) (worked : Worked (t.1, w) t') :
    t'.log = t.log ∧ t.log < t'.2.store.scopes.length := by
  obtain ⟨log, -⟩ := (resident.opens_log never store).log_worked worked
  constructor
  · rw [log, Session.log, store]
    exact Filed.logScope_openChild _ _
  · rw [worked.frame.tree.length_scopes, store]
    exact t.2.store.openChild_lt _ _

end Resident

/-! ## The work of the ingestor -/

section Work

variable {ε : Type} (t : Session)

theorem run_push_worked (phase : Phase) (doc : Document) :
    ∃ t', (onIngestor (Ingestor.push phase doc) : Action ε Aggregation Unit).run t.1 t.2 = (.ok (), t') ∧ Worked t t' := by
  obtain ⟨j, v, ran, later, frame⟩ := run_push_confined (ε := ε) t.1.ingestor t.2 phase doc
  refine ⟨({ t.1 with ingestor := j }, v), ?_, rfl, later, frame⟩
  rw [onIngestor, Action.run_zoom, ran]

theorem run_ingestAll_worked (docs : List Document) :
    ∃ t', (docs.forM fun d => ingest d : Action ε Aggregation Unit).run t.1 t.2 = (.ok (), t') ∧ Worked t t' := by
  induction docs generalizing t with
  | nil => exact ⟨t, rfl, .of_eq rfl rfl⟩
  | cons d rest ih =>
    obtain ⟨t₁, first, worked⟩ := run_push_worked (ε := ε) t .add d
    have first : (ingest d : Action ε Aggregation Unit).run t.1 t.2 = (.ok (), t₁) := first
    obtain ⟨t₂, later, worked'⟩ := ih t₁
    refine ⟨t₂, ?_, worked.trans worked'⟩
    rw [List.forM_eq_forM, List.forM_cons, Action.run_bind, first]
    exact later

theorem run_commit_worked : ∃ r t', commit.run t.1 t.2 = (r, t') ∧ Worked t t' := by
  obtain ⟨r, j, v, ran, later, frame⟩ := run_commit_confined t.1.ingestor t.2
  have committed : (onIngestor Ingestor.commit).run t.1 t.2 = (r, { t.1 with ingestor := j }, v) := by
    rw [onIngestor, Action.run_zoom, ran]
  have worked : Worked t ({ t.1 with ingestor := j }, v) := ⟨rfl, later, frame⟩
  rw [commit, reported, Action.mapError, Action.run_ofRun, committed]
  rcases r with (e | _) | _ <;> exact ⟨_, _, rfl, worked⟩

end Work

/-! ## The log -/

section Log

variable (a : Aggregation) {w : World} (never : w.plan = .never)

include never

/-- Where the markers are used up, nothing is recorded. -/
theorem run_record_exhausted {doc : Document}
    (none : (w.store.openChild a.ingestor.rootScope (.named logName)).2.append?
      (logScope a.ingestor.rootScope w.store) doc = none) :
    ∃ w', w'.plan = .never ∧ w'.store = (w.store.openChild a.ingestor.rootScope (.named logName)).2 ∧
      (record doc).run a w = (.error (.error (.ofError .markersExhausted)), a, w') := by
  refine ⟨{ w with
    calls := w.calls + 2
    store := (w.store.openChild a.ingestor.rootScope (.named logName)).2 }, never, rfl, ?_⟩
  have failed : (do Access.append (← openLog) doc : Action Error Aggregation Int64).run a w =
      (.error (.error .markersExhausted), a, { w with
        calls := w.calls + 2
        store := (w.store.openChild a.ingestor.rootScope (.named logName)).2 }) := by
    rw [Action.run_bind, run_openLog a never]
    simp only [Access.append, Action.run_bind]
    rw [run_call_never a _ (by exact never)]
    simp only [Action.run_getWorld, none]
    rfl
  rw [record, Action.run_bind, reported, Action.mapError, Action.run_ofRun, failed]

/-- A replay ingests what was appended to the log after its marker. -/
theorem run_replaySince (marker : Int64) :
    ∃ w', w'.plan = .never ∧ w'.events = w.events ∧
      w'.store = (w.store.openChild a.ingestor.rootScope (.named logName)).2 ∧
      (replaySince marker).run a w =
        (do
          ((w.store.appendedSince (logScope a.ingestor.rootScope w.store) marker).map Prod.snd).forM fun d => ingest d
          return highWater marker (w.store.appendedSince (logScope a.ingestor.rootScope w.store) marker) :
          Action Report Aggregation Int64).run a w' := by
  have widened := w.store.widened_openChild a.ingestor.rootScope (.named logName)
  -- Making the log adds nothing to what is read from it.
  have same : (w.store.openChild a.ingestor.rootScope (.named logName)).2.appendedSince
      (logScope a.ingestor.rootScope w.store) marker =
        w.store.appendedSince (logScope a.ingestor.rootScope w.store) marker := by
    simp only [Store.appendedSince, Store.get?_eq, widened.appended_eq, widened.buckets_eq]
  refine ⟨{ w with
    calls := w.calls + 2
    store := (w.store.openChild a.ingestor.rootScope (.named logName)).2 }, never, rfl, rfl, ?_⟩
  have read : (do Access.appendedSince (← openLog) marker : Action Error Aggregation (List (Key × Document))).run a w =
      (.ok (w.store.appendedSince (logScope a.ingestor.rootScope w.store) marker), a, { w with
        calls := w.calls + 2
        store := (w.store.openChild a.ingestor.rootScope (.named logName)).2 }) := by
    rw [Action.run_bind, run_openLog a never]
    simp only [Access.appendedSince, Action.run_bind]
    rw [run_call_never a _ (by exact never)]
    simp only [Action.run_getWorld, same]
    rfl
  rw [replaySince, Action.run_bind, run_reported read]
  simp only [List.forM_eq_forM, List.forM_map]

end Log

/-! ## Reading -/

/-- What a lookup finds in a store. -/
def found (a : Aggregation) (s : Store) (values : List Value) : Except (Failure Report) (List Row) :=
  if !a.pipeline.isIndexed then
    .error (.error ⟨.queryUnsupported, .query, "aggregation '" ++ a.name ++ "' has no IndexedBy"⟩)
  else
    match lookupKey? values with
    | none => .error (.error ⟨.queryInvalid, .query, "index lookups take text or numeric values only"⟩)
    | some front => .ok (rows (s.entriesUnder a.ingestor.rootScope front))

theorem run_lookup (a : Aggregation) {w : World} (never : w.plan = .never) (values : List Value) :
    ∃ w', w'.plan = w.plan ∧ w'.store = w.store ∧ (lookup values).run a w = (found a w.store values, a, w') := by
  rw [lookup, found, Action.run_bind, Action.run_getLocal]
  dsimp only
  cases a.pipeline.isIndexed with
  | false => exact ⟨w, rfl, rfl, rfl⟩
  | true =>
    cases lookupKey? values with
    | none => exact ⟨w, rfl, rfl, rfl⟩
    | some front =>
      have read : (Access.entriesUnder a.ingestor.rootScope front).run a w =
          (.ok (w.store.entriesUnder a.ingestor.rootScope front), a, { w with calls := w.calls + 1 }) := by
        rw [Access.entriesUnder, Action.run_bind, run_call_never a _ never]
        rfl
      refine ⟨{ w with calls := w.calls + 1 }, rfl, rfl, ?_⟩
      show (reported _ >>= _ : Action Report Aggregation (List Row)).run a w = _
      rw [Action.run_bind, run_reported read]
      rfl

/-! ## What calls do -/

/-- A call that leaves the log and the scopes alone. -/
def Call.Plain : Call → Prop
  | .record _ | .retract _ | .replay _ | .reset => False
  | _ => True

/-- What a call does beyond the work of the ingestor, and what it returns. -/
inductive Session.Does (config : Config) (t : Session) : Call → Except (Failure Report) Reply → Session → Prop
  | works {c : Call} {r : Except (Failure Report) Reply} {t' : Session} (plain : c.Plain) (worked : Worked t t') :
    Does config t c r t'
  /-- A recorded document is appended to the log and then queued. -/
  | recorded {d : Document} {m : Int64} {s' : Store} {w : World} {t' : Session} (never : w.plan = .never)
      (appended : t.withLog.append? t.log d = some (m, s')) (store : w.store = s') (worked : Worked (t.1, w) t') :
    Does config t (.record d) (.ok (.marker m)) t'
  | exhausted {d : Document} {w : World} (never : w.plan = .never) (none : t.withLog.append? t.log d = none)
      (store : w.store = t.withLog) :
    Does config t (.record d) (.error (.error (.ofError .markersExhausted))) (t.1, w)
  /-- A retracted document is queued and then dropped from the log. -/
  | dropped {m : Int64} {d : Document} {w w' : World} {t₁ : Session} (never : w.plan = .never)
      (found : (t.2.store.buckets t.log).get? (.numbered m) = some d) (store : w.store = t.withLog)
      (worked : Worked (t.1, w) t₁) (never' : w'.plan = .never)
      (store' : w'.store = t₁.2.store.set t.log (.numbered m) none) :
    Does config t (.retract m) (.ok (.found true)) (t₁.1, w')
  | missing {m : Int64} {w : World} (never : w.plan = .never)
      (none : (t.2.store.buckets t.log).get? (.numbered m) = none) (store : w.store = t.withLog) :
    Does config t (.retract m) (.ok (.found false)) (t.1, w)
  | replayed {m : Int64} {w : World} {t' : Session} (never : w.plan = .never) (store : w.store = t.withLog)
      (worked : Worked (t.1, w) t') :
    Does config t (.replay m) (.ok (.marker (highWater m (t.2.store.appendedSince t.log m)))) t'
  /-- A reset deletes the scope of the name and opens the ingestor in new scopes. -/
  | reset {i : Ingestor} {w : World}
      (opened : Opened config t.1.pipeline (t.2.store.deleteChild Store.root (.named t.1.name)) i w) :
    Does config t .reset (.ok .done) ({ t.1 with ingestor := i }, w)

section Calls

variable {config : Config} (valid : config.validate = .ok ()) (chained : config.chainStore ≠ logName) {t : Session}
  (resident : Resident config t)

include resident

theorem run_plain {c : Call} (plain : c.Plain) : Worked t (t.call c) := by
  cases c with
  | ingest d =>
    obtain ⟨t', ran, worked⟩ := run_push_worked (ε := Report) t .add d
    have ran : (Aggregation.ingest d : Action Report Aggregation Unit).run t.1 t.2 = (.ok (), t') := ran
    have ended : t.call (.ingest d) = t' := by
      rw [Session.call, perform, Action.run_bind, ran]
      rfl
    exact ended ▸ worked
  | uningest d =>
    obtain ⟨t', ran, worked⟩ := run_push_worked (ε := Report) t .retract d
    have ran : (Aggregation.uningest d : Action Report Aggregation Unit).run t.1 t.2 = (.ok (), t') := ran
    have ended : t.call (.uningest d) = t' := by
      rw [Session.call, perform, Action.run_bind, ran]
      rfl
    exact ended ▸ worked
  | commit =>
    obtain ⟨r, t', ran, worked⟩ := run_commit_worked t
    have ended : t.call .commit = t' := by
      rw [Session.call, perform, Action.run_bind, ran]
      cases r <;> rfl
    exact ended ▸ worked
  | results =>
    have read := run_reported (run_entries_never t.1 t.1.ingestor.finalScope resident.never)
    have ended : t.call .results = (t.1, { t.2 with calls := t.2.calls + 1 }) := by
      simp only [Session.call, perform, results, Action.run_bind, Action.run_getLocal, read, Action.run_pure]
    rw [ended]
    exact .of_eq rfl rfl
  | lookup values =>
    obtain ⟨w, plan, store, ran⟩ := run_lookup t.1 resident.never values
    have ended : t.call (.lookup values) = (t.1, w) := by
      rw [Session.call, perform, Action.run_bind, ran]
      cases Aggregation.found t.1 t.2.store values <;> rfl
    rw [ended]
    exact .of_eq plan store
  | queued => exact .of_eq rfl rfl
  | record _ | retract _ | replay _ | reset => cases plain

/-- A document is recorded before it is queued, and not queued if it is not recorded. -/
theorem does_record (d : Document) : Does config t (.record d) (t.reply (.record d)) (t.call (.record d)) := by
  cases appended : t.withLog.append? t.log d with
  | none =>
    obtain ⟨w, never, store, ran⟩ := run_record_exhausted t.1 resident.never appended
    have ended : (perform (.record d)).run t.1 t.2 = (.error (.error (.ofError .markersExhausted)), t.1, w) := by
      rw [perform, Action.run_bind, ran]
    rw [Session.reply, Session.call, ended]
    exact .exhausted never appended store
  | some made =>
    obtain ⟨m, s'⟩ := made
    obtain ⟨w, never, store, ran⟩ := run_record t.1 resident.never appended
    obtain ⟨t', queued, worked⟩ := run_push_worked (ε := Report) (t.1, w) .add d
    have queued : (Aggregation.ingest d : Action Report Aggregation Unit).run t.1 w = (.ok (), t') := queued
    have ended : (perform (.record d)).run t.1 t.2 = (.ok (.marker m), t') := by
      rw [perform, Action.run_bind, ran, Action.run_bind, queued]
      rfl
    rw [Session.reply, Session.call, ended]
    exact .recorded never appended store worked

/-- What stands under a marker in the log is queued for retraction before it is dropped from there. -/
theorem does_retract (m : Int64) : Does config t (.retract m) (t.reply (.retract m)) (t.call (.retract m)) := by
  obtain ⟨w, never, store, ran⟩ := run_retract t.1 resident.never m
  have resident' : Resident config (t.1, w) := resident.opens_log never store
  cases found : (t.2.store.buckets t.log).get? (.numbered m) with
  | none =>
    have ended : (perform (.retract m)).run t.1 t.2 = (.ok (.found false), t.1, w) := by
      rw [Session.log] at found
      rw [perform, Action.run_bind, ran, found]
      rfl
    rw [Session.reply, Session.call, ended]
    exact .missing never found store
  | some d =>
    obtain ⟨t₁, queued, worked⟩ := run_push_worked (ε := Report) (t.1, w) .retract d
    have queued : (Aggregation.uningest d : Action Report Aggregation Unit).run t.1 w = (.ok (), t₁) := queued
    have erased := run_reported (run_set_never t₁.1 t.log (resident'.worked worked).never (.numbered m) none)
    have ended : (perform (.retract m)).run t.1 t.2 = (.ok (.found true), t₁.1,
        { t₁.2 with calls := t₁.2.calls + 1, store := t₁.2.store.set t.log (.numbered m) none }) := by
      rw [Session.log] at found erased
      rw [perform, Action.run_bind, ran, found]
      simp only [Action.run_bind, queued, erased]
      rfl
    rw [Session.reply, Session.call, ended]
    exact .dropped never found store worked (resident'.worked worked).never rfl

/-- All that was appended after a marker is queued again. -/
theorem does_replay (m : Int64) : Does config t (.replay m) (t.reply (.replay m)) (t.call (.replay m)) := by
  obtain ⟨w, never, -, store, ran⟩ := run_replaySince t.1 resident.never m
  obtain ⟨t', queued, worked⟩ := run_ingestAll_worked (ε := Report) (t.1, w)
    ((t.2.store.appendedSince t.log m).map Prod.snd)
  have ended : (perform (.replay m)).run t.1 t.2 =
      (.ok (.marker (highWater m (t.2.store.appendedSince t.log m))), t') := by
    rw [Session.log] at queued
    rw [perform, Action.run_bind, ran, Action.run_bind, queued]
    rfl
  rw [Session.reply, Session.call, ended]
  exact .replayed never store worked

include valid chained

theorem does (c : Call) : Does config t c (t.reply c) (t.call c) := by
  cases c with
  | ingest _ | uningest _ | commit | results | lookup _ | queued => exact .works trivial (run_plain resident trivial)
  | record d => exact does_record resident d
  | retract m => exact does_retract resident m
  | replay m => exact does_replay resident m
  | reset =>
    obtain ⟨i, w, ran, opened⟩ := run_reset resident.config valid chained resident.never resident.tree
    have ended : (perform .reset).run t.1 t.2 = (.ok .done, { t.1 with ingestor := i }, w) := by
      rw [perform, Action.run_bind, ran]
      rfl
    rw [Session.reply, Session.call, ended]
    exact .reset opened

omit valid chained in
/-- Every call leaves a resident session of the same aggregation. -/
theorem Resident.of_does {c : Call} {r : Except (Failure Report) Reply} {t' : Session} (does : Does config t c r t') :
    Resident config t' ∧ t'.1.name = t.1.name ∧ t'.1.pipeline = t.1.pipeline := by
  -- The name and the pipeline are not the ingestor's.
  have kept {u u' : Session} (worked : Worked u u') : u'.1.name = u.1.name ∧ u'.1.pipeline = u.1.pipeline := by
    rw [worked.own]
    exact ⟨rfl, rfl⟩
  cases does with
  | works plain worked => exact ⟨resident.worked worked, kept worked⟩
  | @recorded d m s' w t' never appended store worked =>
    obtain ⟨places, -⟩ := Store.append?_kept appended
    have opened := resident.opens_log (w := { w with store := t.withLog }) never rfl
    have same := kept worked
    exact ⟨(opened.of_places never (store ▸ places)).worked worked, same⟩
  | exhausted never none store => exact ⟨resident.opens_log never store, rfl, rfl⟩
  | @dropped m d w w' t₁ never found store worked never' store' =>
    have worked' := (resident.opens_log never store).worked worked
    have same := kept worked
    refine ⟨worked'.of_places never' ?_, same⟩
    rw [store']
    exact (t₁.2.store.sameTree_set _ _ _).places
  | missing never none store => exact ⟨resident.opens_log never store, rfl, rfl⟩
  | replayed never store worked =>
    have same := kept worked
    exact ⟨(resident.opens_log never store).worked worked, same⟩
  | reset opened => exact ⟨.of_opened opened, rfl, rfl⟩

theorem Resident.calls (cs : List Call) : Resident config (t.calls cs) := by
  induction cs generalizing t with
  | nil => exact resident
  | cons c rest ih => exact ih (resident.of_does (does valid chained resident c)).1

end Calls

end Rollup.Aggregation
