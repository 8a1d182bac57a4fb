import Rollup.Proofs.Aggregation.Sessions
import Rollup.Proofs.Ingest.Census

/-!
# Aggregations agree with their logs

Wherever commits fall between recording and retracting, the result rows that stand for events are those
of a fresh aggregation that is given the events of the ledger at once (`results_agree_with_ledger`): the
documents still in the log, and those whose retraction was skipped.  A retraction is skipped when no commit
has reached an event of its bucket, and then the rows count an event that the log has no more
(`early_retraction_skipped`).
-/

namespace Rollup

open Ingest Verb

/-! ## Rows -/

namespace Row

/-- The rows that stand for some events. -/
def counts (d : Document) : Bool := (ofDocument d).eventCount ≠ 0

theorem eventCount_congr {d e : Document} (same : d.get? Field.count = e.get? Field.count) :
    (ofDocument d).eventCount = (ofDocument e).eventCount :=
  Document.integerOr_congr 0 same

theorem column?_ofDocument (d : Document) (name : String) :
    (ofDocument d).column? name =
      if name ≠ Field.count ∧ ¬Field.isPrivate name then (d.get? name).map Value.render else none := by
  show (SortedMap.mapValues Value.render (d.filter fun other _ =>
    decide (other ≠ Field.count ∧ ¬Field.isPrivate other))).get? name = _
  rw [SortedMap.get?_mapValues, SortedMap.get?_filter]
  simp only [decide_eq_true_eq]
  split <;> rfl

theorem column?_congr {d e : Document} {name : String} (same : d.get? name = e.get? name) :
    (ofDocument d).column? name = (ofDocument e).column? name := by
  rw [column?_ofDocument, column?_ofDocument, same]

end Row

namespace Aggregation

open Ingestor

/-- An entry is for the same bucket as another and counts as many events and unique values. -/
structure SameBucket (q : Query) (e e' : Key × Document) : Prop where
  key : e.1 = e'.1
  events : (Row.ofDocument e.2).eventCount = (Row.ofDocument e'.2).eventCount
  unique : ∀ field name, .countUniqueValues field name ∈ q.clauses →
    (Row.ofDocument e.2).column? name = (Row.ofDocument e'.2).column? name
  breakdown : ∀ field name, .brokenDownBy field name ∈ q.clauses →
    ∃ part, Document.part? e.2 name = some part ∧ Document.part? e'.2 name = some part

/-- The entries of the last stage. -/
def Session.entries (t : Session) : List (Key × Document) := t.2.store.entries t.1.ingestor.finalScope

/-- The entries whose rows stand for some events. -/
def live (entries : List (Key × Document)) : List (Key × Document) := entries.filter fun e => Row.counts e.2

theorem run_results {t : Session} (never : t.2.plan = .never) :
    (results.run t.1 t.2).1 = .ok (rows t.entries) := by
  rw [results, Action.run_bind, Action.run_getLocal]
  simp only [Action.run_bind, run_reported (run_entries_never t.1 t.1.ingestor.finalScope never)]
  rfl

/-- The log has the entries of the ledger. -/
theorem run_logged {above : ScopeId} {sites : List Site} {l : Ledger} {t : Session} (never : t.2.plan = .never)
    (rootScope : t.1.ingestor.rootScope = above) (filed : Filed above sites l t.2.store) :
    (logged.run t.1 t.2).1 = .ok l.logged.toList := by
  subst rootScope
  have entries := filed.openLog.entries
  rw [Filed.logScope_openChild] at entries
  rw [logged, Action.run_bind, run_openLog t.1 never]
  show ((Access.entries (logScope t.1.ingestor.rootScope t.2.store)).run t.1 _).1 = _
  rw [run_entries_never t.1 _ (by exact never)]
  exact congrArg (fun m => Except.ok (SortedMap.toList m)) entries

/-- Where every bucket is as afresh, the entries that stand for events are the same ones. -/
theorem forall₂_live {s fresh : Store} {site site' : Site} (recomputes : Recomputes s fresh site site')
    (sorted : (s.buckets site.scope).Sorted) (sorted' : (fresh.buckets site'.scope).Sorted) :
    List.Forall₂ (fun e e' => e.1 = e'.1 ∧ Agrees site.stage e.2 e'.2)
      (live (s.entries site.scope)) (live (fresh.entries site'.scope)) := by
  have ordered : (live (s.entries site.scope)).Pairwise fun a b => compare a.1 b.1 = .lt :=
    List.Pairwise.filter _ sorted
  have ordered' : (live (fresh.entries site'.scope)).Pairwise fun a b => compare a.1 b.1 = .lt :=
    List.Pairwise.filter _ sorted'
  apply SortedMap.forall₂_of_sorted ordered ordered'
  · intro e mem
    obtain ⟨stored, counts⟩ := List.mem_filter.1 mem
    have found : s.get? site.scope e.1 = some e.2 := sorted.mem_toList_iff.1 stored
    cases found' : fresh.get? site'.scope e.1 with
    | none =>
      -- A bucket that the fresh store lacks counts nothing, so its row was left out.
      have void := (recomputes.void e.1 e.2 found found').count
      simp [Row.counts, Row.ofDocument, Document.integerOr, void, Value.int?] at counts
    | some d' =>
      obtain ⟨d, same, agrees⟩ := recomputes.present e.1 d' found'
      obtain rfl := Option.some.inj (found.symm.trans same)
      refine ⟨(e.1, d'), List.mem_filter.2 ⟨sorted'.mem_toList_iff.2 found', ?_⟩, rfl, agrees⟩
      rw [Row.counts, ← Row.eventCount_congr agrees.count]
      exact counts
  · intro e' mem
    obtain ⟨stored, counts⟩ := List.mem_filter.1 mem
    obtain ⟨d, found, agrees⟩ := recomputes.present e'.1 e'.2 (sorted'.mem_toList_iff.1 stored)
    refine ⟨(e'.1, d), List.mem_filter.2 ⟨sorted.mem_toList_iff.2 found, ?_⟩, rfl⟩
    rw [Row.counts, Row.eventCount_congr agrees.count]
    exact counts

/-! ## Roots with the same events -/

theorem Balanced.count_idle {root : Stage} {b : Ingest.Buckets} {l : Ledger} (balanced : Balanced root {} b l)
    (key : Key) : amount b Field.count key = members root l.events key := by
  have count := balanced.count key
  rw [taken_empty] at count
  change _ + (0 : Int) - 0 = _ at count
  omega

/-- A root covers another that counts the same events and no others ever. -/
theorem covers_of_balanced {verbs : List Verb} {root : Stage} {b fresh : Ingest.Buckets} {l l' : Ledger}
    (kept : l.Kept) (settled : l.waiting = []) (perm : l'.events.Perm l.events)
    (reached : ∀ d ∈ l'.reached, d ∈ l'.events) (grounded : Grounded verbs root b {})
    (grounded' : Grounded verbs root fresh {}) (balanced : Balanced root {} b l)
    (balanced' : Balanced root {} fresh l') : Covers root b fresh := by
  apply covers_of_count grounded grounded'
  case domain =>
    intro key mem
    -- An event that one ledger stands for has been reached in the other, as nothing waits there.
    obtain ⟨d, listed, own⟩ := (balanced'.stored key).1 mem
    have entered := kept.entered d (perm.subset (reached d listed))
    rw [settled, List.append_nil] at entered
    exact (balanced.stored key).2 ⟨d, entered, own⟩
  case count =>
    intro key
    rw [balanced.count_idle, balanced'.count_idle, members_perm perm]

theorem Ledger.ofOps_ingest (keyOf : Document → Option Key) (docs : List Document) :
    ofOps keyOf (docs.map .ingest) = { beside := docs, waiting := docs } := by
  induction docs using List.reverseRecOn with
  | nil => rfl
  | append_singleton docs d ih =>
    rw [List.map_append, List.map_singleton, ofOps_append, ih]
    rfl

/-! ## Agreement -/

theorem sameBucket_of_agrees {q : Query} {verbs : List Verb} (read : q.clauses.mapM Clause.verb = .ok verbs)
    {stage : Stage} (mem : stage ∈ (Pipeline.ofVerbs verbs).stages) {e e' : Key × Document} (key : e.1 = e'.1)
    (agrees : Agrees stage e.2 e'.2) : SameBucket q e e' := by
  have keeps := Stage.keeps_of_mem_stages mem
  have reduced : ∀ v ∈ verbs, v.reduces → v ∈ (Stage.root (Pipeline.composition verbs)).reduces := by
    intro v listed reduces
    rw [Query.composition_of_read read]
    exact List.mem_filter.2 ⟨List.mem_cons_of_mem _ listed, reduces⟩
  constructor
  case key => exact key
  case events => exact Row.eventCount_congr agrees.count
  case unique =>
    intro field name listed
    obtain ⟨v, found, own⟩ := Query.exists_verb_of_mem read listed
    obtain rfl := (Clause.countUniqueValues_iff_of_verb own field name).2 rfl
    apply Row.column?_congr
    apply agrees.unique
    rw [keeps.unique]
    exact Verb.mem_unique.2 (.inr ⟨field, reduced _ found rfl⟩)
  case breakdown =>
    intro field name listed
    obtain ⟨v, found, own⟩ := Query.exists_verb_of_mem read listed
    obtain rfl := Clause.brokenDownBy_of_verb own
    exact agrees.breakdown field name (keeps.breakdown field name (reduced _ found rfl))

theorem Tracked.entries_eq {verbs : List Verb} {root : Site} {behindSites : List Site} {calls : Nat} {q : Queues}
    {l : Ledger} {t : Session} (tracked : Tracked verbs root behindSites calls q l t) :
    t.entries =
      t.2.store.entries ((root :: behindSites).getLast (List.cons_ne_nil root behindSites)).scope := by
  have sites : t.1.ingestor.sites = root :: behindSites := tracked.sound.sites
  rw [Session.entries, finalScope, sites, List.getLast?_eq_some_getLast (List.cons_ne_nil root behindSites)]
  rfl

/-- Sessions of a query that stand for the same events have the same rows for them. -/
theorem sameBuckets_of_tracked {q : Query} {verbs : List Verb} (read : q.clauses.mapM Clause.verb = .ok verbs)
    (plain : Plain (Pipeline.composition verbs)) {root : Site} {behindSites : List Site}
    (stages : (root :: behindSites).map Site.stage = (Pipeline.ofVerbs verbs).stages) {calls calls' : Nat}
    {l l' : Ledger} {t fresh : Session} (kept : l.Kept) (settled : l.waiting = []) (perm : l'.events.Perm l.events)
    (reached : ∀ d ∈ l'.reached, d ∈ l'.events)
    (tracked : Tracked (Pipeline.composition verbs) root behindSites calls {} l t)
    (tracked' : Tracked (Pipeline.composition verbs) root behindSites calls' {} l' fresh) :
    List.Forall₂ (SameBucket q) (live t.entries) (live fresh.entries) := by
  have standing := tracked.sound.standing
  have standing' := tracked'.sound.standing
  have covers := covers_of_balanced kept settled perm reached standing.grounded standing'.grounded
    tracked.balanced tracked'.balanced
  have recomputes := List.forall₂_same.1 (forall₂_recomputes plain rfl covers standing.grounded.holds
    standing'.grounded.holds standing.linked standing'.linked)
  let last := (root :: behindSites).getLast (List.cons_ne_nil root behindSites)
  have mem : last ∈ root :: behindSites := List.getLast_mem _
  have staged : last.stage ∈ (Pipeline.ofVerbs verbs).stages := stages ▸ List.mem_map_of_mem mem
  rw [tracked.entries_eq, tracked'.entries_eq]
  apply (forall₂_live (recomputes last mem) (standing.sorted last.scope) (standing'.sorted last.scope)).imp
  intro e e' agree
  exact sameBucket_of_agrees read staged agree.1 agree.2

/-- Wherever commits fall, the rows that stand for events are those of a fresh aggregation that is given
the events of the ledger at once, in any order. -/
theorem results_agree_with_ledger {q : Query} {p : Pipeline} (compiled : q.compile = .ok p) (outputs : q.OutputsApart)
    (short : q.clauses.length < 2 ^ 62) {config : Config} (valid : config.validate = .ok ())
    (chained : config.chainStore ≠ logName) (manual : config.autoCommitDisabled = true) (name : String) :
    ∃ t : Session, (openNamed config name q : Action Report Unit Aggregation).run () {} = (.ok t.1, (), t.2) ∧
      ∀ ops : List Op, ops.length < 2 ^ 51 →
        let kept := t.after (ops ++ [.commit])
        let ledger := Ledger.ofOps p.root.key? ops
        (logged.run kept.1 kept.2).1 = .ok ledger.logged.toList ∧
          (results.run kept.1 kept.2).1 = .ok (rows kept.entries) ∧
          ∀ docs : List Document, docs.Perm ledger.events →
            let fresh := t.after (docs.map .ingest ++ [.commit])
            (results.run fresh.1 fresh.2).1 = .ok (rows fresh.entries) ∧
              List.Forall₂ (SameBucket q) (live kept.entries) (live fresh.entries) := by
  obtain ⟨verbs, read, rfl⟩ := Query.exists_read_of_compile compiled
  have columns := Query.columnsApart_of_read read outputs
  have plain := Query.plain_of_read read short
  obtain ⟨t, ran, stages, root, behindSites, start⟩ := run_openNamed compiled columns valid chained manual name
  refine ⟨t, ran, fun ops few => ?_⟩
  intro kept ledger
  have key? : root.stage.key? = (Pipeline.ofVerbs verbs).root.key? := by
    rw [start.sound.stage]
    rfl
  have tracked := start.after_commit few
  rw [key?, Ledger.ofOps_append] at tracked
  have log := run_logged tracked.never tracked.sound.rootScope_eq tracked.filed
  refine ⟨log, run_results tracked.never, ?_⟩
  intro docs perm fresh
  have next_le := Ledger.next_ofOps_le (Pipeline.ofVerbs verbs).root.key? ops
  have left : (Ledger.ofOps (Pipeline.ofVerbs verbs).root.key? ops).next < 2 ^ 63 := by omega
  obtain ⟨ledger_kept, size⟩ :=
    Ledger.kept_ofOps (Pipeline.ofVerbs verbs).root.key? (show ops.length < 2 ^ 63 by omega)
  -- The fresh session makes a call for every event, and there are no more events than calls before.
  have few' : (docs.map Op.ingest).length < 2 ^ 51 := by
    rw [List.length_map, perm.length_eq]
    exact Nat.lt_of_le_of_lt size few
  have tracked' := start.after_commit few'
  rw [key?, Ledger.ofOps_append, Ledger.ofOps_ingest] at tracked'
  refine ⟨run_results tracked'.never, ?_⟩
  have sites : t.1.ingestor.sites = root :: behindSites := start.sound.sites
  rw [sites] at stages
  refine sameBuckets_of_tracked read plain stages (ledger_kept.enter left .commit) rfl ?perm ?reached tracked tracked'
  case perm => exact perm
  case reached => exact fun _ listed => listed

/-- One retraction comes after a commit and takes effect, the other comes too early for its bucket. -/
theorem results_agree_with_ledger_skipped :
    let q : Query := .appliedTo (.countUniqueValues "u" "U") (.alone (.brokenDownBy "a" "A"))
    let p := Pipeline.ofVerbs [.brokenDownBy "a" "A", .countUniqueValues "u" "U"]
    let config : Config := { commitThreshold := 0 }
    let d : Document := ⟨[("a", .text "x"), ("u", .int 1)]⟩
    let e : Document := ⟨[("a", .text "x"), ("u", .int 2)]⟩
    let ops : List Op := [.record d, .commit, .record e, .retract 0, .retract 1]
    (Ledger.ofOps p.root.key? ops).events = [e] ∧
      ∃ t : Session, (openNamed config "n" q : Action Report Unit Aggregation).run () {} = (.ok t.1, (), t.2) ∧
        List.Forall₂ (SameBucket q) (live (t.after (ops ++ [.commit])).entries)
          (live (t.after [.ingest e, .commit]).entries) := by
  intro q p config d e ops
  have events : (Ledger.ofOps p.root.key? ops).events = [e] := by rfl
  have valid : config.validate = .ok () := rfl
  have outputs : q.OutputsApart := ⟨by decide, by decide⟩
  obtain ⟨t, ran, agree⟩ := @results_agree_with_ledger q p rfl outputs (by decide) config valid (by decide) rfl "n"
  obtain ⟨-, -, same⟩ := agree ops (by decide)
  refine ⟨events, t, ran, (same [e] ?_).2⟩
  rw [events]

/-! ## Retractions that are skipped -/

/-- The session of a query in a fresh store. -/
def Session.fresh? (config : Config) (name : String) (q : Query) : Option Session :=
  match (openNamed config name q : Action Report Unit Aggregation).run () {} with
  | (.ok a, (), w) => some (a, w)
  | _ => none

theorem run_openNamed_of_fresh? {config : Config} {name : String} {q : Query} {t : Session}
    (opened : Session.fresh? config name q = some t) :
    (openNamed config name q : Action Report Unit Aggregation).run () {} = (.ok t.1, (), t.2) := by
  unfold Session.fresh? at opened
  split at opened
  · next ran =>
    rw [ran, ← Option.some.inj opened]
  · cases opened

/-- An event that is retracted before a commit has reached its bucket leaves the log, but the rows still
count it. -/
theorem early_retraction_skipped :
    let q : Query := .alone (.brokenDownBy "a" "A")
    let config : Config := { commitThreshold := 0 }
    let d : Document := ⟨[("a", .text "x")]⟩
    (∃ p, q.compile = .ok p) ∧ q.OutputsApart ∧ config.autoCommitDisabled = true ∧
      ∃ t : Session, (openNamed config "n" q : Action Report Unit Aggregation).run () {} = (.ok t.1, (), t.2) ∧
        let kept := t.after [.record d, .record d, .retract 1, .commit]
        let fresh := t.after [.ingest d, .commit]
        (logged.run kept.1 kept.2).1 = .ok [(.numbered 0, d)] ∧
          (results.run kept.1 kept.2).1.map (List.map Row.eventCount) = .ok [2] ∧
          (results.run fresh.1 fresh.2).1.map (List.map Row.eventCount) = .ok [1] := by
  intro q config d
  have traced : (Session.fresh? config "n" q).map (fun t =>
      let kept := t.after [.record d, .record d, .retract 1, .commit]
      let fresh := t.after [.ingest d, .commit]
      ((logged.run kept.1 kept.2).1, (results.run kept.1 kept.2).1.map (List.map Row.eventCount),
        (results.run fresh.1 fresh.2).1.map (List.map Row.eventCount))) =
      some (.ok [(.numbered 0, d)], .ok [2], .ok [1]) := by cbv
  obtain ⟨t, opened, same⟩ := Option.map_eq_some_iff.1 traced
  obtain ⟨log, skipped, expected⟩ := by simpa only [Prod.mk.injEq] using same
  exact ⟨⟨_, rfl⟩, ⟨by decide, by decide⟩, rfl, t, run_openNamed_of_fresh? opened, log, skipped, expected⟩

end Aggregation

end Rollup
