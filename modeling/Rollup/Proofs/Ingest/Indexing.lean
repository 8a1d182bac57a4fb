import Rollup.Proofs.Ingest.Pace
import Rollup.Proofs.Ingest.Uniques
import Rollup.Proofs.Verb.Indexing

/-!
# Indexing does not change results

An index splits the buckets of the root by the values of its field, and a stage more merges the pieces
again.  Where every event has the field, the last stages of a query and of the query with the index in any
place have buckets for the same keys, which count the same events (`Surveyed.agrees_insert_index`).  As
both queries reject the same events, both commit after the same calls, so this holds after every commit
(`indexing_keeps_results`).
-/

namespace Rollup

open Ingest Document Verb

namespace Ingest

section Alike

variable {arrived : Set Document} {docs : List Document} {stage stage' : Stage} {b b' : Buckets}
  {keyOf keyOf' : Document → Option Key} {label label' : String → Document → Option Key}
  (census : Census arrived docs stage b keyOf label) (census' : Census arrived docs stage' b' keyOf' label')
  (same_key : ∀ d ∈ arrived, keyOf d = keyOf' d)

include census census' same_key

/-- Where the same events go to the same keys, the same buckets are stored. -/
theorem Census.domain_eq : domain b = domain b' := by
  ext key
  rw [census.peopled, census'.peopled]
  apply exists_congr
  intro d
  apply and_congr_right
  intro came
  rw [same_key d came]

omit census' in
theorem Census.eventsOf_eq (key : Key) : eventsOf keyOf docs key = eventsOf keyOf' docs key := by
  apply List.filter_congr
  intro d mem
  rw [same_key d (census.survived d mem)]

theorem Census.count_eq (key : Key) : amount b Field.count key = amount b' Field.count key := by
  rw [census.count, census'.count, census.eventsOf_eq same_key]

theorem Census.unique_eq {name : String} (listed : name ∈ stage.reduces.filterMap unique?)
    (listed' : name ∈ stage'.reduces.filterMap unique?) (same_label : ∀ d ∈ arrived, label name d = label' name d)
    (key : Key) : amount b name key = amount b' name key := by
  rw [census.unique name listed, census'.unique name listed', census.eventsOf_eq same_key]
  congr 1
  apply distinct_congr
  intro d mem e mem'
  rw [same_label d (census.survived d (mem_eventsOf.1 mem).1), same_label e (census.survived e (mem_eventsOf.1 mem').1)]

end Alike

end Ingest

namespace Ingestor

/-- Where an index rejects no event, the last stages with it and without it have the same buckets. -/
theorem Surveyed.agrees_insert_index {before after : List Verb} {field : String} {arrived : Set Document}
    {docs : List Document} {t t' : Session} {last last' : Site}
    (surveyed : Surveyed (before ++ after) arrived docs t last)
    (surveyed' : Surveyed (before ++ indexedBy field :: after) arrived docs t' last')
    (plain : Plain (before ++ after)) (plain' : Plain (before ++ indexedBy field :: after))
    (indexed : ∀ d ∈ arrived, (Stage.root (before ++ after)).key? d ≠ none → part? (seen before d) field ≠ none)
    (key : Key) : Option.Rel (Agrees (Stage.root (before ++ after))) (t.result? key) (t'.result? key) := by
  -- Both chains of stages give every event the same last key, so both census tell of the same events.
  have same_key : ∀ merged, ∀ d ∈ arrived, mergedKey? (before ++ after) merged d =
      mergedKey? (before ++ indexedBy field :: after) merged d := by
    intro merged d came
    have later : ∀ v ∈ after, v.isChained = false := fun v mem => plain.unchained v (List.mem_append_right _ mem)
    exact (mergedKey?_insert_index later (indexed d came) merged).symm
  have census := surveyed.census
  have census' := surveyed'.census
  have keeps' := surveyed'.keeps
  rw [CensusAfter, counts_insert_index] at census'
  rw [Stage.root, filter_reduces_insert_index] at keeps'
  have domains := census.domain_eq census' (same_key _)
  rw [Session.result?, Session.result?, surveyed.scope, surveyed'.scope, Store.get?_eq, Store.get?_eq]
  cases found : (t.2.store.buckets last.scope).get? key with
  | none =>
    have missing : key ∉ domain (t'.2.store.buckets last'.scope) := by
      rw [← domains, mem_domain, found]
      rintro ⟨b, stored⟩
      cases stored
    rw [get?_eq_none missing]
    exact .none
  | some b =>
    obtain ⟨b', found'⟩ := mem_domain.1 (domains ▸ mem_domain.2 ⟨b, found⟩)
    rw [found']
    constructor
    have count := census.count_eq census' (same_key _) key
    have unique : ∀ name ∈ (Stage.root (before ++ after)).reduces.filterMap unique?,
        amount (t.2.store.buckets last.scope) name key = amount (t'.2.store.buckets last'.scope) name key := by
      intro name listed
      apply census.unique_eq census' (same_key _) (surveyed.keeps.unique ▸ listed) (keeps'.unique ▸ listed)
      intro d came
      rw [countsBefore_insert_index, same_key _ d came]
    simp only [amount_of_get? found, amount_of_get? found'] at count unique
    exact agrees_of_holds plain plain' surveyed.keeps keeps' (surveyed.unindexed.trans surveyed'.unindexed.symm)
      (fun name => (keySlot_insert_index before after field name).symm) (surveyed.holds key b found)
      (surveyed'.holds key b' found') count unique

section Verbs

variable {before after : List Verb} {field : String} {config : Config} {t t' : Session} {ops : List Op}
  {committed pending : List Document}

/-- After a commit of both, pipelines of verbs with an index and without it have the same results. -/
theorem results_insert_index (apart : ColumnsApart (before ++ after))
    (apart' : ColumnsApart (before ++ indexedBy field :: after))
    (plain : Plain (Pipeline.composition (before ++ after)))
    (plain' : Plain (Pipeline.composition (before ++ indexedBy field :: after)))
    (counted : Pipeline.composition (before ++ after) = .countDocuments :: before ++ after)
    (counted' : Pipeline.composition (before ++ indexedBy field :: after) =
      .countDocuments :: before ++ indexedBy field :: after)
    (valid : config.validate = .ok ())
    (ran : (openAt Store.root (Pipeline.ofVerbs (before ++ after)) config : Action Error Unit Ingestor).run () {} =
      (.ok t.1, (), t.2))
    (ran' : (openAt Store.root (Pipeline.ofVerbs (before ++ indexedBy field :: after)) config :
      Action Error Unit Ingestor).run () {} = (.ok t'.1, (), t'.2))
    (history : History t ops committed pending)
    (indexed : ∀ d, .ingest d ∈ ops ∨ .uningest d ∈ ops →
      (Stage.root (.countDocuments :: before ++ after)).key? d ≠ none → part? (seen before d) field ≠ none)
    (small : ∀ done, done <+: ops → (t.after done).Small) (small' : ∀ done, done <+: ops → (t'.after done).Small)
    (drained : (t.after ops).1.queued = 0) (key : Key) :
    Option.Rel (Agrees (Stage.root (.countDocuments :: before ++ after)))
      ((t.after ops).result? key) ((t'.after ops).result? key) := by
  obtain ⟨root, behindSites, plan, sound, -⟩ := sound_of_openAt apart valid FaultPlan.never_rootOnly ran
  obtain ⟨root', behindSites', plan', sound', -⟩ := sound_of_openAt apart' valid FaultPlan.never_rootOnly ran'
  have due : t.1.isDue = t'.1.isDue := by
    funext n
    rw [isDue_of_openAt valid ran, isDue_of_openAt valid ran']
  have unchained : ∀ v ∈ after, v.isChained = false := by
    intro v mem
    apply plain.unchained
    rw [counted]
    exact List.mem_append_right _ mem
  -- The roots accept the same documents, so what is a history of one pipeline is one of the other.
  have accepts : ∀ d, .ingest d ∈ ops ∨ .uningest d ∈ ops →
      (root.stage.map? d).isSome = (root'.stage.map? d).isSome := by
    intro d mem
    rw [sound.stage, sound'.stage, counted, counted']
    exact (isSome_map?_insert_index unchained (indexed d mem)).symm
  have paced := sound.queued_congr sound' due (plan ▸ FaultPlan.never_spares _) (plan' ▸ FaultPlan.never_spares _)
    small small' accepts
  obtain ⟨last, surveyed⟩ := surveyed_of_history apart plain valid ran history small drained
  obtain ⟨last', surveyed'⟩ := surveyed_of_history apart' plain' valid ran' (history.of_queued paced) small'
    (paced ops List.prefix_rfl ▸ drained)
  rw [counted] at plain surveyed
  rw [counted'] at plain' surveyed'
  exact surveyed.agrees_insert_index surveyed' plain plain' (fun d came => indexed d (.inl came)) key

end Verbs

variable {q q' : Query} {p p' : Pipeline} {config : Config} {front back : List Clause} {field : String}

/-- An index can be inserted anywhere in a query: after every commit, whether it was called or became due,
the last stages have the same buckets, those of the ingested events, and the buckets agree but for sums and
means.  Every event that the query accepts has the field of the index where the index reads it. -/
theorem indexing_keeps_results (compiled : q.compile = .ok p) (compiled' : q'.compile = .ok p')
    (outputs : q.OutputsApart) (short : q'.clauses.length < 2 ^ 62) (valid : config.validate = .ok ())
    (split : q.clauses = front ++ back) (split' : q'.clauses = front ++ .indexedBy field :: back) :
    ∃ before, ∃ t t' : Session, front.mapM Clause.verb = .ok before ∧
      (openAt Store.root p config : Action Error Unit Ingestor).run () {} = (.ok t.1, (), t.2) ∧
      (openAt Store.root p' config : Action Error Unit Ingestor).run () {} = (.ok t'.1, (), t'.2) ∧
      ∀ (ops : List Op) (committed pending : List Document), History t ops committed pending →
        (∀ d, .ingest d ∈ ops ∨ .uningest d ∈ ops → (p.root.map? d).isSome →
          ∃ part, part? (seen before d) field = some part) →
        (∀ done, done <+: ops → (t.after done).Small) → (∀ done, done <+: ops → (t'.after done).Small) →
        ops.getLast? = some .commit ∨ (t.after ops).1.queued = 0 →
        (∀ key, (∃ b, (t.after ops).result? key = some b) ↔ ∃ d, .ingest d ∈ ops ∧ p.resultKey? d = some key) ∧
          ∀ key, Option.Rel (Agrees p.root) ((t.after ops).result? key) ((t'.after ops).result? key) := by
  obtain ⟨verbs, read, rfl⟩ := Query.exists_read_of_compile compiled
  obtain ⟨verbs', read', rfl⟩ := Query.exists_read_of_compile compiled'
  obtain ⟨before, v, after, first, own, later, rfl⟩ := Query.split_of_read read' split'
  obtain rfl := Clause.indexedBy_of_verb own
  obtain rfl : verbs = before ++ after := by
    rw [split, List.mapM_append, first, later] at read
    exact (Except.ok.inj read).symm
  have short' : q.clauses.length < 2 ^ 62 := by
    rw [split', List.length_append, List.length_cons] at short
    rw [split, List.length_append]
    omega
  have apart := Query.columnsApart_of_read read outputs
  have apart' := Query.columnsApart_of_read read' (outputs.insert_index split split')
  have counted : Pipeline.composition (before ++ after) = .countDocuments :: before ++ after :=
    Query.composition_of_read read
  obtain ⟨t, ran, -, plan, root, behindSites, sound, -⟩ := opened apart valid FaultPlan.never_rootOnly
  obtain ⟨t', ran', -⟩ := opened apart' valid FaultPlan.never_rootOnly
  refine ⟨before, t, t', first, ran, ran', ?_⟩
  intro ops committed pending history indexed small small' done
  -- After a commit that was called nothing is queued; after another call that is given.
  have drained : (t.after ops).1.queued = 0 := by
    rcases done with last | drained
    · obtain ⟨earlier, rfl⟩ := List.getLast?_eq_some_iff.1 last
      exact sound.queued_after_commit (plan ▸ FaultPlan.never_spares _) small
    · exact drained
  have reads : ∀ d, .ingest d ∈ ops ∨ .uningest d ∈ ops →
      (Stage.root (.countDocuments :: before ++ after)).key? d ≠ none → part? (seen before d) field ≠ none := by
    intro d mem accepted
    rw [← counted, Stage.key?, ne_eq, Option.map_eq_none_iff, ← ne_eq, Option.ne_none_iff_isSome] at accepted
    obtain ⟨part, found⟩ := indexed d mem accepted
    rw [found]
    exact Option.some_ne_none part
  have plain := Query.plain_of_read read short'
  have plain' := Query.plain_of_read read' short
  obtain ⟨last, surveyed⟩ := surveyed_of_history apart plain valid ran history small drained
  refine ⟨surveyed.stored_iff, fun key => ?_⟩
  show Option.Rel (Agrees (Stage.root (Pipeline.composition (before ++ after)))) _ _
  rw [counted]
  exact results_insert_index apart apart' plain plain' counted (Query.composition_of_read read') valid ran ran' history
    reads small small' drained key

/-- A bucket is split in two by the index, loses an event and gets another. -/
theorem indexing_keeps_results_split_bucket :
    let q : Query := .appliedTo (.countUniqueValues "u" "U") (.alone (.brokenDownBy "a" "A"))
    let q' : Query :=
      .appliedTo (.countUniqueValues "u" "U") (.appliedTo (.indexedBy "i") (.alone (.brokenDownBy "a" "A")))
    let p := Pipeline.ofVerbs [.brokenDownBy "a" "A", .countUniqueValues "u" "U"]
    let p' := Pipeline.ofVerbs [.brokenDownBy "a" "A", .indexedBy "i", .countUniqueValues "u" "U"]
    let config : Config := { commitThreshold := 0 }
    let d : Document := ⟨[("a", .text "x"), ("i", .int 1), ("u", .int 1)]⟩
    let e : Document := ⟨[("a", .text "x"), ("i", .text "y"), ("u", .int 1)]⟩
    let f : Document := ⟨[("a", .text "x"), ("i", .int 1), ("u", .int 2)]⟩
    q.compile = .ok p ∧ q'.compile = .ok p' ∧
      ∃ t t' : Session,
        (openAt Store.root p config : Action Error Unit Ingestor).run () {} = (.ok t.1, (), t.2) ∧
        (openAt Store.root p' config : Action Error Unit Ingestor).run () {} = (.ok t'.1, (), t'.2) ∧
        let ops : List Op := [.ingest d, .ingest e, .commit, .uningest d, .ingest f, .commit]
        ∃ b b', (t.after ops).result? ⟨[.text "x", .null]⟩ = some b ∧
          (t'.after ops).result? ⟨[.text "x", .null]⟩ = some b' ∧ Agrees p.root b b' := by
  intro q q' p p' config d e f
  have compiled : q.compile = .ok p := rfl
  have compiled' : q'.compile = .ok p' := rfl
  have outputs : q.OutputsApart := ⟨by decide, by decide⟩
  have apart : ColumnsApart [.brokenDownBy "a" "A", .countUniqueValues "u" "U"] := ⟨by decide, by decide⟩
  have apart' : ColumnsApart [.brokenDownBy "a" "A", .indexedBy "i", .countUniqueValues "u" "U"] :=
    ⟨by decide, by decide⟩
  have valid : config.validate = .ok () := rfl
  obtain ⟨before, t, t', first, ran, ran', same⟩ :=
    @indexing_keeps_results q q' p p' config [.brokenDownBy "a" "A"] [.countUniqueValues "u" "U"] "i" compiled
      compiled' outputs (by decide) valid rfl rfl
  obtain rfl : before = [.brokenDownBy "a" "A"] := (Except.ok.inj first).symm
  refine ⟨compiled, compiled', t, t', ran, ran', ?_⟩
  have drained : (t.after [.ingest d, .ingest e, .commit]).1.queued = 0 :=
    @queued_after_commit _ apart _ valid _ FaultPlan.never_rootOnly _ ran FaultPlan.never_spares
      [.ingest d, .ingest e] (by decide)
  have committed : History t [.ingest d, .ingest e, .commit] [d, e] [] :=
    ((History.start.ingest d).ingest e).commit.settle drained
  intro ops
  have replaced : History t ops [e] [f] := ((@History.uningest t _ [] [e] [] d d committed (.inl rfl)).ingest f).commit
  have indexed : ∀ doc, .ingest doc ∈ ops ∨ .uningest doc ∈ ops → (p.root.map? doc).isSome →
      ∃ part, part? (seen [.brokenDownBy "a" "A"] doc) "i" = some part := by
    intro doc mem _
    obtain rfl | rfl | rfl : doc = d ∨ doc = e ∨ doc = f := by simp [ops] at mem; tauto
    · exact ⟨.int 1, rfl⟩
    · exact ⟨.text "y", rfl⟩
    · exact ⟨.int 1, rfl⟩
  have small := @small_of_openAt _ apart _ valid _ FaultPlan.never_rootOnly _ ran ops (by decide)
  have small' := @small_of_openAt _ apart' _ valid _ FaultPlan.never_rootOnly _ ran' ops (by decide)
  obtain ⟨stored, agrees⟩ := same ops _ _ replaced indexed small small' (.inl rfl)
  have own : p.resultKey? f = some ⟨[.text "x", .null]⟩ := by cbv
  obtain ⟨b, found⟩ := (stored _).2 ⟨f, by simp [ops], own⟩
  have agrees := agrees ⟨[.text "x", .null]⟩
  rw [found] at agrees
  cases found' : (t'.after ops).result? ⟨[.text "x", .null]⟩ with
  | none =>
    rw [found'] at agrees
    cases agrees
  | some b' =>
    rw [found'] at agrees
    cases agrees with
    | some agrees => exact ⟨b, b', found, rfl, agrees⟩

end Ingestor

end Rollup
