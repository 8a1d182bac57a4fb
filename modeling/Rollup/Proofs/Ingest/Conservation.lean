import Rollup.Aggregation
import Rollup.Proofs.Ingest.Census

/-!
# Events are conserved

Every accepted event stands in one bucket of the last stage, so the event counts of the result rows
add up to the number of accepted events (`events_conserved`).  This rests on the names of the outputs:
a column that is called like the count takes its place (`count_column_overwritten`).
-/

namespace Rollup

open Ingest Document Verb

/-- The events that rows stand for. -/
def Row.events (rows : List Row) : Int := (rows.map fun r => r.eventCount.toInt).sum

namespace Ingest

/-- The counts of the entries of a scope are the amounts of its keys. -/
theorem sum_amount {b : Buckets} (sorted : b.Sorted) (field : String) :
    wholeSum (b.toList.map Prod.snd) field = ∑ key ∈ domain b, amount b field key := by
  rw [domain, List.sum_toFinset _ sorted.nodup_keys, wholeSum, List.map_map, List.map_map]
  congr 1
  apply List.map_congr_left
  intro e mem
  simp only [Function.comp_apply]
  rw [amount_of_get? (sorted.mem_toList_iff.1 mem)]

/-- Events that have a key stand in one bucket. -/
theorem sum_length_eventsOf {keyOf : Document → Option Key} {docs : List Document} {keys : Finset Key}
    (stored : ∀ d ∈ docs, ∀ key, keyOf d = some key → key ∈ keys) :
    ∑ key ∈ keys, (eventsOf keyOf docs key).length = docs.countP fun d => (keyOf d).isSome := by
  induction docs with
  | nil => simp [eventsOf]
  | cons d rest ih =>
    simp only [length_eventsOf_cons]
    rw [Finset.sum_add_distrib, ih fun e mem => stored e (List.mem_cons_of_mem d mem), List.countP_cons,
      Nat.add_comm]
    congr 1
    cases own : keyOf d with
    | none => simp
    | some key =>
      have here := stored d List.mem_cons_self key own
      simp [here]

end Ingest

theorem Row.events_rows (entries : List (Key × Document)) :
    Row.events (Aggregation.rows entries) = wholeSum (entries.map Prod.snd) Field.count := by
  simp [Row.events, Aggregation.rows, wholeSum, Row.ofDocument, whole, Function.comp_def]

namespace Ingestor

/-- The result rows of a session. -/
def Session.rows (t : Session) : List Row := Aggregation.rows (t.2.store.entries t.1.finalScope)

theorem Surveyed.events_rows {verbs : List Verb} {arrived : Set Document} {docs : List Document} {t : Session}
    {last : Site} (surveyed : Surveyed verbs arrived docs t last) :
    Row.events t.rows = docs.countP fun d => ((Stage.root verbs).map? d).isSome := by
  have counts : ∀ key ∈ domain (t.2.store.buckets last.scope), amount (t.2.store.buckets last.scope) Field.count key =
      (eventsOf (mergedKey? verbs (counts verbs)) docs key).length := fun key _ => surveyed.census.count key
  calc Row.events t.rows
      = wholeSum ((t.2.store.entries last.scope).map Prod.snd) Field.count := by
        rw [Session.rows, surveyed.scope, Row.events_rows]
    _ = ∑ key ∈ domain (t.2.store.buckets last.scope), amount (t.2.store.buckets last.scope) Field.count key :=
        sum_amount surveyed.sorted Field.count
    _ = ∑ key ∈ domain (t.2.store.buckets last.scope),
          ((eventsOf (mergedKey? verbs (Verb.counts verbs)) docs key).length : Int) := Finset.sum_congr rfl counts
    _ = docs.countP fun d => (mergedKey? verbs (Verb.counts verbs) d).isSome := by
        rw [← Nat.cast_sum, sum_length_eventsOf fun _ mem _ => surveyed.census.stored mem]
    _ = docs.countP fun d => ((Stage.root verbs).map? d).isSome := by
        simp only [isSome_mergedKey?]

/-- After any history, the event counts of the result rows add up to the number of surviving events that
the root accepts. -/
theorem events_conserved {q : Query} {p : Pipeline} (compiled : q.compile = .ok p) (outputs : q.OutputsApart)
    (short : q.clauses.length < 2 ^ 62) {config : Config} (valid : config.validate = .ok ()) :
    ∃ t : Session, (openAt Store.root p config : Action Error Unit Ingestor).run () {} = (.ok t.1, (), t.2) ∧
      ∀ (ops : List Op) (committed pending : List Document), History t ops committed pending →
        (∀ done, done <+: ops ++ [.commit] → (t.after done).Small) →
        Row.events (t.after (ops ++ [.commit])).rows =
          (committed ++ pending).countP fun d => (p.root.map? d).isSome := by
  obtain ⟨verbs, rfl, apart, plain⟩ := Query.exists_verbs_of_compile compiled outputs short
  obtain ⟨t, ran, surveyed⟩ := surveyed_after_commit apart plain valid
  refine ⟨t, ran, ?_⟩
  intro ops committed pending history small
  obtain ⟨last, surveyed⟩ := surveyed ops committed pending history small
  exact surveyed.events_rows

/-- One event of three is rejected, and one of two values is counted under two index values. -/
theorem events_conserved_one_rejected :
    let q : Query := .appliedTo (.countUniqueValues "u" "U") (.alone (.indexedBy "i"))
    let p := Pipeline.ofVerbs [.indexedBy "i", .countUniqueValues "u" "U"]
    let config : Config := { commitThreshold := 0 }
    let docs : List Document := [⟨[("i", .int 1), ("u", .int 1)]⟩, ⟨[("i", .int 2), ("u", .int 1)]⟩, ⟨[("u", .int 1)]⟩]
    q.compile = .ok p ∧
      ∃ t : Session, (openAt Store.root p config : Action Error Unit Ingestor).run () {} = (.ok t.1, (), t.2) ∧
        Row.events (t.after (docs.map .ingest ++ [.commit])).rows = 2 := by
  intro q p config docs
  have compiled : q.compile = .ok p := rfl
  have outputs : q.OutputsApart := ⟨by decide, by decide⟩
  have apart : ColumnsApart [.indexedBy "i", .countUniqueValues "u" "U"] := ⟨by decide, by decide⟩
  have valid : config.validate = .ok () := rfl
  obtain ⟨t, ran, conserved⟩ := @events_conserved q p compiled outputs (by decide) config valid
  have accepted : (([] ++ docs).countP fun d => (p.root.map? d).isSome) = 2 := by cbv
  have total := conserved _ _ _ (history_map_ingest t docs)
    (small_of_openAt apart valid FaultPlan.never_rootOnly ran (by decide))
  rw [accepted] at total
  exact ⟨compiled, t, ran, total⟩

/-- The rows that a fresh ingestor makes of documents. -/
def freshRows? (p : Pipeline) (docs : List Document) : Option (List Row) :=
  match (openAt Store.root p { commitThreshold := 0 } : Action Error Unit Ingestor).run () {} with
  | (.ok i, (), w) => some (Session.rows (Session.after (i, w) (docs.map .ingest ++ [.commit])))
  | _ => none

/-- A breakdown whose column is called like the count: the value of the field passes for the number of
events. -/
theorem count_column_overwritten :
    let q : Query := .alone (.brokenDownBy "a" "Count")
    let p := Pipeline.ofVerbs [.brokenDownBy "a" "Count"]
    let docs : List Document := [⟨[("a", .int 7)]⟩]
    q.compile = .ok p ∧ (docs.countP fun d => (p.root.map? d).isSome) = 1 ∧
      (freshRows? p docs).map Row.events = some 7 := by
  intro q p docs
  refine ⟨rfl, ?_, ?_⟩
  · cbv
  · cbv

end Ingestor

end Rollup
