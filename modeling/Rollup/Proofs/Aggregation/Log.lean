import Rollup.Proofs.Aggregation.Ledger

/-!
# Logs

The log of an aggregation is a scope of its own below the scope of its root (`Filed`).  Every call opens
it anew and finds the same one, since neither writes nor commits change the tree.
-/

namespace Rollup.Aggregation

open Ingest Ingestor

/-! ## The scope of the log -/

/-- The scope of the log below a scope, whether it has been made or not. -/
def logScope (above : ScopeId) (s : Store) : ScopeId := (s.openChild above (.named logName)).1

/-- The log below a scope has the entries of a ledger and is not the scope of a site. -/
structure Filed (above : ScopeId) (sites : List Site) (l : Ledger) (s : Store) : Prop where
  entries : s.buckets (logScope above s) = l.logged
  marker : s.nextMarker = l.next
  apart : ∀ site ∈ sites, site.scope ≠ logScope above s

namespace Filed

variable {above : ScopeId} {sites : List Site} {l l' : Ledger} {s s' : Store}

theorem logScope_openChild (above : ScopeId) (s : Store) :
    logScope above (s.openChild above (.named logName)).2 = logScope above s :=
  congrArg Prod.fst (s.openChild_openChild above (.named logName))

theorem openLog (filed : Filed above sites l s) : Filed above sites l (s.openChild above (.named logName)).2 where
  entries := by
    rw [logScope_openChild, Store.buckets_openChild]
    exact filed.entries
  marker := by
    rw [Store.nextMarker_openChild]
    exact filed.marker
  apart := by
    rw [logScope_openChild]
    exact filed.apart

/-- A log is where it was in a store with the same tree. -/
theorem of_places (filed : Filed above sites l s) (places : s'.places = s.places)
    (entries : s'.buckets (logScope above s) = l'.logged) (marker : s'.nextMarker = l'.next) :
    Filed above sites l' s' := by
  have same : logScope above s' = logScope above s := Store.openChild_congr places above (.named logName)
  constructor
  case entries =>
    rw [same]
    exact entries
  case marker => exact marker
  case apart =>
    rw [same]
    exact filed.apart

variable (keyOf : Document → Option Key) {d : Document}

/-- An event that is appended to the log is in the ledger as recorded. -/
theorem append (filed : Filed above sites l s) (left : l.next < 2 ^ 63) (d : Document) :
    ∃ s', (s.openChild above (.named logName)).2.append? (logScope above s) d = some (Int64.ofNat l.next, s') ∧
      Filed above sites (l.enter keyOf (.record d)) s' ∧ Beside sites s s' := by
  have opened := filed.openLog
  have marker := opened.marker
  have entries := opened.entries
  have apart := opened.apart
  rw [logScope_openChild] at entries apart
  have room : (s.openChild above (.named logName)).2.nextMarker < 0x8000000000000000 := by omega
  -- The log is where the ledger has it once it has been made, and an append writes nowhere else.
  obtain ⟨s', appended, next, places, own, others⟩ :=
    Store.append?_eq room (s.openChild_lt above (.named logName)) d
  rw [marker] at appended next own
  change s'.buckets (logScope above s) = _ at own
  refine ⟨s', appended, ?_, ?_⟩
  · apply opened.of_places places
    case entries =>
      rw [logScope_openChild, own]
      exact congrArg (fun m => m.insert (.numbered (Int64.ofNat l.next)) d) entries
    case marker => exact next
  · have length : s'.scopes.length = (s.openChild above (.named logName)).2.scopes.length := by
      rw [← Store.length_places, places, Store.length_places]
    constructor
    case length =>
      rw [length]
      exact s.length_openChild_le above (.named logName)
    case same =>
      intro site mem
      rw [others _ (apart site mem), Store.buckets_openChild]
    case sorted =>
      intro sorted id
      by_cases log : id = logScope above s
      · rw [log, own, Store.buckets_openChild]
        exact (sorted _).insert _ _
      · rw [others id log, Store.buckets_openChild]
        exact sorted id

/-- An event that is dropped from the log is in the ledger as retracted. -/
theorem erase (filed : Filed above sites l s) {marker : Int64} (found : l.logged.get? (.numbered marker) = some d)
    (opened : logScope above s < s.scopes.length) :
    Filed above sites (l.enter keyOf (.retract marker)) (s.set (logScope above s) (.numbered marker) none) ∧
      Beside sites s (s.set (logScope above s) (.numbered marker) none) := by
  obtain ⟨logged, next, -⟩ := @Ledger.enter_retract keyOf l d marker found
  have tree := s.sameTree_set (logScope above s) (.numbered marker) none
  have own := s.buckets_erase_self opened (.numbered marker)
  constructor
  · apply filed.of_places tree.places
    case entries => rw [own, filed.entries, logged]
    case marker => rw [tree.marker, filed.marker, next]
  · constructor
    case length => exact tree.length_scopes.ge
    case same =>
      intro site mem
      exact s.buckets_set_of_ne (filed.apart site mem) _ _
    case sorted =>
      intro sorted id
      by_cases log : id = logScope above s
      · rw [log, own]
        exact (sorted _).erase _
      · rw [s.buckets_set_of_ne log]
        exact sorted id

theorem beside_openChild (s : Store) : Beside sites s (s.openChild above (.named logName)).2 where
  length := s.length_openChild_le above (.named logName)
  same site _ := s.buckets_openChild above (.named logName) site.scope
  sorted sorted id := by
    rw [s.buckets_openChild]
    exact sorted id

end Filed

/-! ## How calls run -/

variable {ε σ α : Type}

theorem run_reported {act : Action Error σ α} {l : σ} {w : World} {x : α} {rest : σ × World}
    (ran : act.run l w = (.ok x, rest)) : (reported act).run l w = (.ok x, rest) := by
  rw [reported, Action.mapError, Action.run_ofRun, ran]

/-- An aggregation of a query that compiles is opened where its ingestor is. -/
theorem run_openNamed_of_openIngestor {config : Config} (valid : config.validate = .ok ())
    (chained : config.chainStore ≠ logName) {name : String} {q : Query} {pipeline : Pipeline}
    (compiled : q.compile = .ok pipeline) {l l' : σ} {w w' : World} {i : Ingestor}
    (ran : (openIngestor config name pipeline).run l w = (.ok i, l', w')) :
    (openNamed config name q).run l w = (.ok { name, pipeline, ingestor := i }, l', w') := by
  have unchained : checkChainStore config = .ok () := if_neg chained
  simp only [openNamed, Action.run_bind, valid, unchained, compiled, Except.mapError, Action.ofExcept, Action.run_pure,
    run_reported ran]

section Never

variable (l : σ) (scope : ScopeId) {w : World} (never : w.plan = .never)

include never

theorem run_call_never (kind : CallKind) (key? : Option Key) :
    (Access.call kind scope key?).run l w = (.ok (), l, { w with calls := w.calls + 1 }) := by
  rcases run_call kind scope key? l w with ⟨f, failing, -⟩ | ⟨-, ran⟩
  · rw [never] at failing
    cases failing
  · exact ran

theorem run_append_never {doc : Document} {marker : Int64} {s' : Store}
    (appended : w.store.append? scope doc = some (marker, s')) :
    (Access.append scope doc).run l w = (.ok marker, l, { w with calls := w.calls + 1, store := s' }) := by
  rw [Access.append, Action.run_bind, run_call_never l scope never]
  simp only [Action.run_bind, Action.run_getWorld, appended]
  rfl

theorem run_get?_never (key : Key) :
    (Access.get? scope key).run l w = (.ok (w.store.get? scope key), l, { w with calls := w.calls + 1 }) := by
  rw [Access.get?, Action.run_bind, run_call_never l scope never]
  rfl

theorem run_set_never (key : Key) (doc : Option Document) :
    (Access.set scope key doc).run l w =
      (.ok (), l, { w with calls := w.calls + 1, store := w.store.set scope key doc }) := by
  rw [Access.set, Action.run_bind, run_call_never l scope never]
  rfl

theorem run_entries_never :
    (Access.entries scope).run l w = (.ok (w.store.entries scope), l, { w with calls := w.calls + 1 }) := by
  rw [Access.entries, Action.run_bind, run_call_never l scope never]
  rfl

end Never

section Calls

variable (a : Aggregation) {w : World} (never : w.plan = .never)

include never

theorem run_openLog :
    openLog.run a w = (.ok (logScope a.ingestor.rootScope w.store), a,
      { w with
        calls := w.calls + 1
        store := (w.store.openChild a.ingestor.rootScope (.named logName)).2 }) := by
  rw [openLog, Action.run_bind, Action.run_getLocal]
  exact run_openChild _ _ a (never ▸ FaultPlan.never_rootOnly.mild.opens)

/-- An event that is recorded is logged first and then queued. -/
theorem run_record {doc : Document} {marker : Int64} {s' : Store}
    (appended : (w.store.openChild a.ingestor.rootScope (.named logName)).2.append?
      (logScope a.ingestor.rootScope w.store) doc = some (marker, s')) :
    ∃ w', w'.plan = .never ∧ w'.store = s' ∧
      (record doc).run a w = (ingest doc >>= fun _ => pure marker : Action Report Aggregation Int64).run a w' := by
  refine ⟨{ w with calls := w.calls + 2, store := s' }, never, rfl, ?_⟩
  have ran : (do Access.append (← openLog) doc : Action Error Aggregation Int64).run a w =
      (.ok marker, a, { w with calls := w.calls + 2, store := s' }) := by
    rw [Action.run_bind, run_openLog a never]
    exact run_append_never a _ (by exact never) appended
  rw [record, Action.run_bind, run_reported ran]

/-- What a retraction does is decided by what the log has under its marker. -/
theorem run_retract (marker : Int64) :
    ∃ w', w'.plan = .never ∧ w'.store = (w.store.openChild a.ingestor.rootScope (.named logName)).2 ∧
      (retract marker).run a w =
        (match (w.store.buckets (logScope a.ingestor.rootScope w.store)).get? (.numbered marker) with
        | none => pure false
        | some doc => do
          uningest doc
          reported (Access.set (logScope a.ingestor.rootScope w.store) (.numbered marker) none)
          return true : Action Report Aggregation Bool).run a w' := by
  refine ⟨{ w with
    calls := w.calls + 2
    store := (w.store.openChild a.ingestor.rootScope (.named logName)).2 }, never, rfl, ?_⟩
  rw [retract, Action.run_bind, run_reported (run_openLog a never)]
  simp only [Action.run_bind]
  rw [run_reported (run_get?_never a _ (by exact never) _)]
  cases found : (w.store.buckets (logScope a.ingestor.rootScope w.store)).get? (.numbered marker) with
  | none => simp only [Store.get?_eq, Store.buckets_openChild, found]
  | some doc => simp only [Store.get?_eq, Store.buckets_openChild, found]

end Calls

end Rollup.Aggregation
