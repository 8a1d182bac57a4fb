import Rollup.Proofs.Aggregation.Calls
import Rollup.Proofs.Store.Appends

/-!
# What a log holds

The markers of a log ascend and stay below the next one to be handed out.  A `Backlog` is what a log has
after a marker, which awaits the next replay from there; every call is told by what it does to it
(`Backlog.of_does`).
-/

namespace Rollup.Aggregation

open Ingest Ingestor Session

/-! ## Logged documents -/

/-- The documents of a log that were appended after a marker and are still there. -/
def since (b : SortedMap Key Document) (appended : List Int64) (marker : Int64) : List (Int64 × Document) :=
  (appended.filter (marker < ·)).filterMap fun m => (b.get? (.numbered m)).map fun d => (m, d)

theorem appendedSince_eq (s : Store) (id : ScopeId) (marker : Int64) :
    s.appendedSince id marker =
      (since (s.buckets id) (s.scope id).appended marker).map fun e => (.numbered e.1, e.2) := by
  rw [since, List.map_filterMap, Store.appendedSince]
  congr 1
  funext m
  rw [Store.get?_eq]
  cases (s.buckets id).get? (.numbered m) <;> rfl

section Since

variable {b : SortedMap Key Document} {appended : List Int64} {marker m : Int64} {d : Document}

theorem mem_since {e : Int64 × Document} :
    e ∈ since b appended marker ↔ e.1 ∈ appended ∧ marker < e.1 ∧ b.get? (.numbered e.1) = some e.2 := by
  obtain ⟨n, doc⟩ := e
  simp only [since, List.mem_filterMap, List.mem_filter, decide_eq_true_eq, Option.map_eq_some_iff, Prod.mk.injEq]
  constructor
  · rintro ⟨k, ⟨listed, after⟩, doc', found, rfl, rfl⟩
    exact ⟨listed, after, found⟩
  · rintro ⟨listed, after, found⟩
    exact ⟨n, ⟨listed, after⟩, doc, found, rfl, rfl⟩

theorem since_append (new : m ∉ appended) (after : marker < m) :
    since (b.insert (.numbered m) d) (appended ++ [m]) marker = since b appended marker ++ [(m, d)] := by
  have old : ∀ n ∈ appended.filter (marker < ·),
      ((b.insert (.numbered m) d).get? (.numbered n)).map (fun d => (n, d)) =
        (b.get? (.numbered n)).map fun d => (n, d) := by
    intro n mem
    have other : Key.numbered n ≠ .numbered m := fun same =>
      new (Key.numbered_injective same ▸ (List.mem_filter.1 mem).1)
    rw [SortedMap.get?_insert, if_neg other]
  simp only [since, List.filter_append, List.filterMap_append, List.filterMap_congr old]
  simp [after, SortedMap.get?_insert]

theorem since_erase : since (b.erase (.numbered m)) appended marker = (since b appended marker).filter (·.1 ≠ m) := by
  simp only [since, List.filter_filterMap]
  congr 1
  funext n
  rw [SortedMap.get?_erase]
  by_cases same : n = m
  · subst same
    cases b.get? (.numbered n) <;> simp [Option.filter]
  · have other : Key.numbered n ≠ .numbered m := fun same' => same (Key.numbered_injective same')
    rw [if_neg other]
    cases b.get? (.numbered n) <;> simp [Option.filter, same]

/-- What was appended after a later marker. -/
theorem filter_since {later : Int64} (less : marker ≤ later) :
    (since b appended marker).filter (later < ·.1) = since b appended later := by
  simp only [since, List.filter_filterMap, List.filterMap_filter, decide_eq_true_eq]
  congr 1
  funext m
  by_cases after : later < m
  · rw [if_pos after, if_pos (Int64.lt_of_le_of_lt less after)]
    cases b.get? (.numbered m) <;> simp [Option.filter, after]
  · rw [if_neg after]
    split
    · cases b.get? (.numbered m) <;> simp [Option.filter, after]
    · rfl

theorem ascending_since (ascending : appended.Pairwise (· < ·)) :
    (since b appended marker).Pairwise fun e e' => e.1 < e'.1 := by
  rw [since, List.pairwise_filterMap]
  refine (ascending.filter _).imp ?_
  intro m n less e made e' made'
  obtain ⟨d, -, rfl⟩ := Option.map_eq_some_iff.1 made
  obtain ⟨d', -, rfl⟩ := Option.map_eq_some_iff.1 made'
  exact less

end Since

/-! ## High water -/

theorem highWater_cons (marker m : Int64) (d : Document) (entries : List (Key × Document)) :
    highWater marker ((.numbered m, d) :: entries) = highWater (if marker < m then m else marker) entries := rfl

/-- The marker to go on from is the one given or that of an entry, and no entry has a greater one. -/
theorem highWater_spec (marker : Int64) (docs : List (Int64 × Document)) :
    (highWater marker (docs.map fun e => (.numbered e.1, e.2)) = marker ∨
        ∃ e ∈ docs, highWater marker (docs.map fun e => (.numbered e.1, e.2)) = e.1) ∧
      marker ≤ highWater marker (docs.map fun e => (.numbered e.1, e.2)) ∧
      ∀ e ∈ docs, e.1 ≤ highWater marker (docs.map fun e => (.numbered e.1, e.2)) := by
  induction docs generalizing marker with
  | nil => exact ⟨.inl rfl, Int64.le_refl marker, fun e mem => absurd mem List.not_mem_nil⟩
  | cons e rest ih =>
    rw [List.map_cons, highWater_cons]
    -- The first entry has been taken into account when the others are gone through.
    obtain ⟨from_, above, greatest⟩ := ih (if marker < e.1 then e.1 else marker)
    refine ⟨?_, ?_, ?_⟩
    · rcases from_ with same | ⟨e', mem, same⟩
      · rw [same]
        split
        · exact .inr ⟨e, List.mem_cons_self, rfl⟩
        · exact .inl rfl
      · exact .inr ⟨e', List.mem_cons_of_mem e mem, same⟩
    · refine Int64.le_trans ?_ above
      split
      · next less => exact Int64.le_of_lt less
      · exact Int64.le_refl marker
    · intro e' mem
      rcases List.mem_cons.1 mem with rfl | later
      · refine Int64.le_trans ?_ above
        split
        · exact Int64.le_refl _
        · next less => exact Int64.not_lt.1 less
      · exact greatest e' later

/-! ## Markers -/

/-- The marker that a call has handed out. -/
def handed : Call → Except (Failure Report) Reply → List Int64
  | .record _, .ok (.marker m) => [m]
  | _, _ => []

/-- The next marker is handed out to what is recorded, and to nothing else. -/
theorem nextMarker_of_does {config : Config} {t t' : Session} {c : Call} {r : Except (Failure Report) Reply}
    (does : Does config t c r t') :
    t'.2.store.nextMarker = t.2.store.nextMarker + (handed c r).length ∧
      ∀ m ∈ handed c r, m.toInt = t.2.store.nextMarker := by
  have opens {w : World} (store : w.store = t.withLog) : w.store.nextMarker = t.2.store.nextMarker :=
    store ▸ t.2.store.nextMarker_openChild _ _
  -- Only an append to the log hands out a marker; what else a call does leaves the next one alone.
  cases does with
  | works plain worked =>
    have none : handed c r = [] := by
      cases c with
      | ingest _ | uningest _ | commit | results | lookup _ | queued => rfl
      | record _ | retract _ | replay _ | reset => cases plain
    rw [none, worked.frame.tree.marker]
    exact ⟨rfl, fun m mem => absurd mem List.not_mem_nil⟩
  | @recorded d m s' w t' never appended store worked =>
    obtain ⟨-, -, value, next⟩ := Store.append?_kept appended
    have marker : t.withLog.nextMarker = t.2.store.nextMarker := opens (w := { t.2 with store := t.withLog }) rfl
    rw [worked.frame.tree.marker, store, next, marker]
    refine ⟨rfl, fun n mem => ?_⟩
    rw [List.mem_singleton.1 mem, value, marker]
  | exhausted never none store => exact ⟨opens store, fun m mem => absurd mem List.not_mem_nil⟩
  | @dropped m d w w' t₁ never found store worked never' store' =>
    refine ⟨?_, fun m mem => absurd mem List.not_mem_nil⟩
    rw [store', (t₁.2.store.sameTree_set _ _ _).marker, worked.frame.tree.marker, opens store]
    rfl
  | missing never none store => exact ⟨opens store, fun m mem => absurd mem List.not_mem_nil⟩
  | replayed never store worked =>
    refine ⟨?_, fun m mem => absurd mem List.not_mem_nil⟩
    rw [worked.frame.tree.marker, opens store]
    rfl
  | reset opened =>
    refine ⟨?_, fun m mem => absurd mem List.not_mem_nil⟩
    rw [opened.widened.marker, Store.nextMarker_deleteChild]
    rfl

/-! ## The log of a session -/

section Log

variable {t : Session} {w : World}

/-- Making the log changes nothing. -/
theorem log_opened (store : w.store = t.withLog) : Session.log (t.1, w) = t.log ∧
    w.store.buckets t.log = t.2.store.buckets t.log ∧ (w.store.scope t.log).appended = (t.2.store.scope t.log).appended := by
  have widened := t.2.store.widened_openChild t.1.ingestor.rootScope (.named logName)
  rw [Session.log, store]
  exact ⟨Filed.logScope_openChild _ _, widened.buckets_eq _, widened.appended_eq _⟩

/-- An append comes last in the log, under the next marker. -/
theorem log_appended {d : Document} {m : Int64} {s' : Store} (made : t.withLog.append? t.log d = some (m, s'))
    (store : w.store = s') : t.2.store.nextMarker < 2 ^ 63 ∧ m = Int64.ofNat t.2.store.nextMarker ∧
      w.store.nextMarker = t.2.store.nextMarker + 1 ∧ Session.log (t.1, w) = t.log ∧
      w.store.buckets t.log = (t.2.store.buckets t.log).insert (.numbered m) d ∧
      (w.store.scope t.log).appended = (t.2.store.scope t.log).appended ++ [m] := by
  have widened := t.2.store.widened_openChild t.1.ingestor.rootScope (.named logName)
  have marker : t.withLog.nextMarker = t.2.store.nextMarker := widened.marker
  have buckets : t.withLog.buckets t.log = t.2.store.buckets t.log := widened.buckets_eq _
  have appended : (t.withLog.scope t.log).appended = (t.2.store.scope t.log).appended := widened.appended_eq _
  have here : t.log < t.withLog.scopes.length := t.2.store.openChild_lt t.1.ingestor.rootScope (.named logName)
  obtain ⟨places, left, -⟩ := Store.append?_kept made
  obtain ⟨grown, -⟩ := Store.appended_append? made here
  obtain ⟨s₁, made', next, -, inserted, -⟩ := Store.append?_eq left here d
  obtain ⟨rfl, rfl⟩ := Prod.mk.inj (Option.some.inj (made'.symm.trans made))
  have log : Session.log (t.1, w) = t.log := by
    rw [Session.log, store, logScope, Store.openChild_congr places]
    exact Filed.logScope_openChild _ _
  rw [store, ← marker, ← buckets, ← appended]
  exact ⟨left, rfl, next, log, inserted, grown⟩

end Log

/-! ## Backlogs -/

/-- What awaits the next replay from a marker: documents of the log, of which markers are handed out in
ascending order. -/
structure Backlog (t : Session) (high : Int64) (docs : List (Int64 × Document)) : Prop where
  since : since (t.2.store.buckets t.log) (t.2.store.scope t.log).appended high = docs
  ascending : (t.2.store.scope t.log).appended.Pairwise (· < ·)
  issued : ∀ m ∈ (t.2.store.scope t.log).appended, 0 ≤ m.toInt ∧ m.toInt < t.2.store.nextMarker
  stored : ∀ m d, (t.2.store.buckets t.log).get? (.numbered m) = some d → m ∈ (t.2.store.scope t.log).appended
  passed : high.toInt < t.2.store.nextMarker

/-- The marker to go on from after a call. -/
def advance (high : Int64) : Call → Except (Failure Report) Reply → Int64
  | .replay _, .ok (.marker m) => m
  | _, _ => high

/-- What awaits the next replay after a call. -/
def await (docs : List (Int64 × Document)) : Call → Except (Failure Report) Reply → List (Int64 × Document)
  | .record d, .ok (.marker m) => docs ++ [(m, d)]
  | .retract m, _ => docs.filter (·.1 ≠ m)
  | .replay _, _ | .reset, _ => []
  | _, _ => docs

namespace Backlog

variable {config : Config} {t t' : Session} {high : Int64} {docs : List (Int64 × Document)}

/-- A backlog is told by what the log has. -/
theorem of_same (backlog : Backlog t high docs) (buckets : t'.2.store.buckets t'.log = t.2.store.buckets t.log)
    (appended : (t'.2.store.scope t'.log).appended = (t.2.store.scope t.log).appended)
    (marker : t.2.store.nextMarker ≤ t'.2.store.nextMarker) : Backlog t' high docs where
  since := by rw [buckets, appended, backlog.since]
  ascending := by
    rw [appended]
    exact backlog.ascending
  issued m mem := by
    rw [appended] at mem
    obtain ⟨start, before⟩ := backlog.issued m mem
    exact ⟨start, Int.lt_of_lt_of_le before (Int.ofNat_le.2 marker)⟩
  stored := by
    rw [buckets, appended]
    exact backlog.stored
  passed := Int.lt_of_lt_of_le backlog.passed (Int.ofNat_le.2 marker)

/-- A backlog is what it was where the log has what it had. -/
theorem of_log (backlog : Backlog t high docs) (log : t'.log = t.log)
    (buckets : t'.2.store.buckets t.log = t.2.store.buckets t.log)
    (appended : (t'.2.store.scope t.log).appended = (t.2.store.scope t.log).appended)
    (marker : t'.2.store.nextMarker = t.2.store.nextMarker) : Backlog t' high docs :=
  backlog.of_same (log ▸ buckets) (log ▸ appended) marker.ge

theorem worked (backlog : Backlog t high docs) (resident : Resident config t) (worked : Worked t t') :
    Backlog t' high docs := by
  obtain ⟨log, buckets, appended⟩ := resident.log_worked worked
  exact backlog.of_log log buckets appended worked.frame.tree.marker

/-- Making the log changes nothing. -/
theorem opens_log (backlog : Backlog t high docs) {w : World} (store : w.store = t.withLog) :
    Backlog (t.1, w) high docs := by
  obtain ⟨log, buckets, appended⟩ := log_opened store
  exact backlog.of_log log buckets appended (store ▸ t.2.store.nextMarker_openChild _ _)

/-- A recorded document comes last. -/
theorem append (backlog : Backlog t high docs) {d : Document} {m : Int64} {s' : Store} {w : World}
    (appended : t.withLog.append? t.log d = some (m, s')) (store : w.store = s') :
    m.toInt = t.2.store.nextMarker ∧ s'.nextMarker = t.2.store.nextMarker + 1 ∧
      Backlog (t.1, w) high (docs ++ [(m, d)]) := by
  obtain ⟨left, rfl, next, log, buckets, grown⟩ := log_appended appended store
  rw [store] at next buckets grown
  have value : (Int64.ofNat t.2.store.nextMarker).toInt = t.2.store.nextMarker := Int64.toInt_ofNat_of_lt left
  -- The new marker is greater than all that the log lists, so the document comes last in a scan.
  have greater : ∀ n ∈ (t.2.store.scope t.log).appended, n < Int64.ofNat t.2.store.nextMarker := by
    intro n mem
    rw [Int64.lt_iff_toInt_lt, value]
    exact (backlog.issued n mem).2
  refine ⟨value, next, ?_, ?_, ?_, ?_, ?_⟩
  · rw [log, store, buckets, grown, since_append]
    · rw [backlog.since]
    · exact fun mem => Int64.lt_irrefl (greater _ mem)
    · rw [Int64.lt_iff_toInt_lt, value]
      exact backlog.passed
  · rw [log, store, grown, List.pairwise_append]
    refine ⟨backlog.ascending, List.pairwise_singleton _ _, fun n mem n' last => ?_⟩
    rw [List.mem_singleton.1 last]
    exact greater n mem
  · intro n mem
    rw [log, store, grown] at mem
    rw [store, next]
    rcases List.mem_append.1 mem with before | last
    · have issued := backlog.issued n before
      omega
    · rw [List.mem_singleton.1 last, value]
      omega
  · intro n doc found
    rw [log, store, buckets, SortedMap.get?_insert] at found
    rw [log, store, grown, List.mem_append]
    split at found
    · next same => exact .inr (List.mem_singleton.2 (Key.numbered_injective same))
    · exact .inl (backlog.stored n doc found)
  · rw [store, next]
    exact Int.lt_add_one_of_le (Int.le_of_lt backlog.passed)

/-- A document that is dropped from the log is awaited no more. -/
theorem erase (backlog : Backlog t high docs) (here : t.log < t.2.store.scopes.length) (m : Int64) {w : World}
    (store : w.store = t.2.store.set t.log (.numbered m) none) :
    Backlog (t.1, w) high (docs.filter (·.1 ≠ m)) := by
  have tree := t.2.store.sameTree_set t.log (.numbered m) none
  have log : Session.log (t.1, w) = t.log := by
    rw [Session.log, store, logScope]
    exact Store.openChild_congr tree.places _ _
  have appended : (w.store.scope t.log).appended = (t.2.store.scope t.log).appended := by
    rw [store]
    exact t.2.store.appended_set t.log _ _ _
  have buckets : w.store.buckets t.log = (t.2.store.buckets t.log).erase (.numbered m) := by
    rw [store]
    exact t.2.store.buckets_erase_self here _
  have marker : w.store.nextMarker = t.2.store.nextMarker := by
    rw [store]
    exact tree.marker
  constructor
  case since =>
    rw [log, buckets, appended, since_erase, backlog.since]
  case ascending =>
    rw [log, appended]
    exact backlog.ascending
  case issued =>
    rw [log, appended, marker]
    exact backlog.issued
  case stored =>
    intro n doc found
    rw [log, buckets, SortedMap.get?_erase] at found
    rw [log, appended]
    split at found
    · cases found
    · exact backlog.stored n doc found
  case passed =>
    rw [marker]
    exact backlog.passed

/-- Nothing awaits a replay from the marker that the last one returned. -/
theorem caught_up (backlog : Backlog t high docs) :
    Backlog t (highWater high (t.2.store.appendedSince t.log high)) [] := by
  have entries := appendedSince_eq t.2.store t.log high
  rw [backlog.since] at entries
  obtain ⟨from_, above, greatest⟩ := highWater_spec high docs
  rw [← entries] at from_ above greatest
  constructor
  -- What is still awaited was awaited before, and the marker that was returned is not below it.
  case since =>
    rw [List.eq_nil_iff_forall_not_mem]
    intro e mem
    obtain ⟨listed, after, found⟩ := mem_since.1 mem
    have awaited : e ∈ docs := by
      rw [← backlog.since]
      exact mem_since.2 ⟨listed, Int64.lt_of_le_of_lt above after, found⟩
    exact Int64.lt_irrefl (Int64.lt_of_lt_of_le after (greatest e awaited))
  case ascending => exact backlog.ascending
  case issued => exact backlog.issued
  case stored => exact backlog.stored
  case passed =>
    rcases from_ with same | ⟨e, mem, same⟩
    · rw [same]
      exact backlog.passed
    · rw [same]
      rw [← backlog.since] at mem
      exact (backlog.issued e.1 (mem_since.1 mem).1).2

/-- Nothing awaits a replay where the log has yet to be made. -/
theorem of_unmade (log : t.2.store.scopes.length ≤ t.log) (passed : high.toInt < t.2.store.nextMarker) :
    Backlog t high [] := by
  have empty := t.2.store.scope_of_length_le log
  constructor
  case since =>
    rw [empty]
    rfl
  case ascending =>
    rw [empty]
    exact List.Pairwise.nil
  case issued =>
    rw [empty]
    exact fun m mem => absurd mem List.not_mem_nil
  case stored =>
    intro m d found
    rw [Store.buckets, empty] at found
    cases found
  case passed => exact passed

/-- What awaits the next replay after a call. -/
theorem of_does (backlog : Backlog t high docs) (resident : Resident config t) {c : Call}
    {r : Except (Failure Report) Reply} (does : Does config t c r t') (follows : ∀ m, c = .replay m → m = high) :
    Backlog t' (advance high c r) (await docs c r) := by
  cases does with
  | works plain worked =>
    have plain' : advance high c r = high ∧ await docs c r = docs := by
      cases c with
      | ingest _ | uningest _ | commit | results | lookup _ | queued => exact ⟨rfl, rfl⟩
      | record _ | retract _ | replay _ | reset => cases plain
    rw [plain'.1, plain'.2]
    exact backlog.worked resident worked
  | @recorded d m s' w t' never appended store worked =>
    obtain ⟨places, -⟩ := Store.append?_kept appended
    have resident' := (resident.opens_log (w := { w with store := t.withLog }) never rfl).of_places never (store ▸ places)
    exact (backlog.append appended store).2.2.worked resident' worked
  | exhausted never none store => exact backlog.opens_log store
  | @dropped m d w w' t₁ never found store worked never' store' =>
    have opened := (backlog.opens_log store).worked (resident.opens_log never store) worked
    obtain ⟨log, here⟩ := resident.log_of_made never store worked
    exact opened.erase (log ▸ here) m (log ▸ store')
  | @missing m w never none store =>
    -- Nothing is under the marker, so nothing that is awaited has it.
    have same : docs.filter (·.1 ≠ m) = docs := by
      rw [List.filter_eq_self]
      intro e mem
      rw [← backlog.since] at mem
      obtain ⟨-, -, found⟩ := mem_since.1 mem
      have other : e.1 ≠ m := fun same => by
        rw [same, none] at found
        cases found
      exact decide_eq_true other
    show Backlog _ high (docs.filter (·.1 ≠ m))
    rw [same]
    exact backlog.opens_log store
  | @replayed m w t' never store worked =>
    obtain rfl := follows m rfl
    exact ((backlog.caught_up).opens_log store).worked (resident.opens_log never store) worked
  | @reset i w opened =>
    -- The new log has yet to be made.
    refine of_unmade ?_ ?_
    · exact Nat.le_of_eq opened.logScope_eq.symm
    · show high.toInt < w.store.nextMarker
      rw [opened.widened.marker, Store.nextMarker_deleteChild]
      exact backlog.passed

/-! ### The whole log -/

section Whole

variable (backlog : Backlog t (-1) docs)

include backlog

/-- What awaits a replay from the start is all that the log has. -/
theorem get?_iff {m : Int64} {d : Document} :
    (t.2.store.buckets t.log).get? (.numbered m) = some d ↔ (m, d) ∈ docs := by
  rw [← backlog.since, mem_since]
  constructor
  · intro found
    have listed := backlog.stored m d found
    refine ⟨listed, ?_, found⟩
    rw [Int64.lt_iff_toInt_lt]
    exact Int.lt_of_lt_of_le (by decide) (backlog.issued m listed).1
  · exact fun listed => listed.2.2

theorem appended_after {marker : Int64} (start : -1 ≤ marker) :
    t.2.store.appendedSince t.log marker =
      (docs.filter (marker < ·.1)).map fun e => (.numbered e.1, e.2) := by
  rw [appendedSince_eq, ← backlog.since, filter_since start]

end Whole

end Backlog

end Rollup.Aggregation
