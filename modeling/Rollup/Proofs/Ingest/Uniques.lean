import Rollup.Proofs.Ingest.Census

/-!
# What unique counts count

After any history, a column of the last stage counts different tuples: the values that its verb
counts together with those of the unique counts behind it (`unique_counts_tuples`).  So the last unique
count of a query, and the only one if there is no other, counts different values
(`unique_count_exact`).  One that has others behind it counts too many.
-/

namespace Rollup

open Ingest Document Verb

/-- The bucket of the last stage that an event belongs to, unless it is rejected: the parts of its
breakdowns, with nulls in place of the values that unique counts count. -/
def Pipeline.resultKey? (p : Pipeline) (d : Document) : Option Key :=
  mergedKey? p.root.maps (counts p.root.maps) d

namespace Verb

/-- An accepted event has the values that are counted. -/
theorem exists_part?_of_key? {before after : List Verb} {field name : String} {d : Document} {key : Key}
    (own : (Stage.root (before ++ countUniqueValues field name :: after)).key? d = some key) :
    ∃ part, part? (seen before d) field = some part := by
  obtain ⟨entry, mapped, -⟩ := Option.map_eq_some_iff.1 own
  obtain ⟨draft, rfl, kept, -, -⟩ := root_map?_eq mapped
  obtain ⟨part, found, -⟩ := part?_of_kept (turn_kept kept).1 (.inr rfl)
  rw [input_foldl] at found
  exact ⟨part, found⟩

theorem countedParts_of_no_counts {verbs : List Verb} (none : counts verbs = []) (d : Document) :
    countedParts verbs d = [] := by
  induction verbs generalizing d with
  | nil => rfl
  | cons v rest ih =>
    cases v with
    | countUniqueValues field name => cases none
    | countDocuments | only _ _ | brokenDownBy _ _ | sum _ _ | mean _ _ | indexedBy _
    | transformDateFormat _ _ _ | dropIndex | uniqueTally _ => exact ih none _

end Verb

namespace Ingest

variable {before after : List Verb} {field name : String} {docs : List Document} {s : Store} {last : Site}

/-- A column counts the different tuples of its own values and those of the unique counts behind. -/
theorem CensusAfter.amount_unique {verbs : List Verb} {arrived : Set Document}
    (census : CensusAfter verbs verbs arrived docs s last)
    (split : verbs = before ++ .countUniqueValues field name :: after)
    (nodup : (verbs.filterMap field?).Nodup)
    (listed : name ∈ last.stage.reduces.filterMap unique?) (key : Key) :
    amount (s.buckets last.scope) name key =
      distinct (fun d => countedParts (.countUniqueValues field name :: after) (seen before d))
        (eventsOf (mergedKey? verbs (counts verbs)) docs key) := by
  have counts_nodup : (counts verbs).Nodup := nodup.sublist (counts_sublist verbs)
  have others : ∀ u ∈ before, u.field? ≠ some name := by
    intro u mem same
    rw [split, List.filterMap_append, List.nodup_append] at nodup
    exact nodup.2.2 name (List.mem_filterMap.2 ⟨u, mem, same⟩) name List.mem_cons_self rfl
  rw [census.unique name listed key]
  congr 1
  apply distinct_congr
  intro d mem e mem'
  obtain ⟨⟨own, accepted⟩, parts⟩ := mergedKey?_eq_some.1 (mem_eventsOf.1 mem).2
  obtain ⟨⟨own', accepted'⟩, parts'⟩ := mergedKey?_eq_some.1 (mem_eventsOf.1 mem').2
  have earlier : countsBefore verbs name = counts before := by
    rw [split]
    exact countsBefore_of_split others rfl
  rw [earlier, mergedKey?, mergedKey?, accepted, accepted']
  simp only [Option.map_some, Option.some.injEq, Key.mk.injEq]
  subst split
  exact keyParts_eq_iff counts_nodup (parts.trans parts'.symm)

/-- A unique count with none behind it counts the different values of its field. -/
theorem distinct_countedParts {keyOf : Document → Option Key} (none : counts after = []) (key : Key)
    (accepted : ∀ d key, keyOf d = some key →
      ∃ own, (Stage.root (before ++ .countUniqueValues field name :: after)).key? d = some own) :
    distinct (fun d => countedParts (.countUniqueValues field name :: after) (seen before d))
        (eventsOf keyOf docs key) =
      distinct (fun d => part? (seen before d) field) (eventsOf keyOf docs key) := by
  apply distinct_congr
  intro d mem e mem'
  obtain ⟨own, keyed⟩ := accepted d key (mem_eventsOf.1 mem).2
  obtain ⟨own', keyed'⟩ := accepted e key (mem_eventsOf.1 mem').2
  obtain ⟨part, found⟩ := exists_part?_of_key? keyed
  obtain ⟨part', found'⟩ := exists_part?_of_key? keyed'
  simp [countedParts, countedPart?, countedParts_of_no_counts none, found, found']

end Ingest

namespace Ingestor

/-- The bucket of the last stage under a key. -/
def Session.result? (t : Session) (key : Key) : Option Document := t.2.store.get? t.1.finalScope key

variable {verbs before after : List Verb} {field name : String} {arrived : Set Document} {docs : List Document}
  {t : Session} {last : Site} {key : Key} {b : Document}

/-- The last stage has the buckets of the events that ever arrived. -/
theorem Surveyed.stored_iff (surveyed : Surveyed verbs arrived docs t last) (key : Key) :
    (∃ b, t.result? key = some b) ↔ ∃ d ∈ arrived, mergedKey? verbs (counts verbs) d = some key := by
  rw [Session.result?, surveyed.scope, ← surveyed.census.peopled]
  exact mem_domain.symm

theorem Surveyed.stored (surveyed : Surveyed verbs arrived docs t last) {d : Document} (mem : d ∈ docs)
    (own : mergedKey? verbs (counts verbs) d = some key) : ∃ b, t.result? key = some b :=
  (surveyed.stored_iff key).2 ⟨d, surveyed.census.survived d mem, own⟩

theorem Surveyed.hasInt_unique (surveyed : Surveyed verbs arrived docs t last)
    (split : verbs = before ++ .countUniqueValues field name :: after)
    (nodup : (verbs.filterMap field?).Nodup) (found : t.result? key = some b) :
    HasInt b name (distinct (fun d => countedParts (.countUniqueValues field name :: after) (seen before d))
      (eventsOf (mergedKey? verbs (counts verbs)) docs key)) := by
  rw [Session.result?, surveyed.scope, Store.get?_eq] at found
  have listed : name ∈ last.stage.reduces.filterMap unique? := by
    rw [surveyed.keeps.unique]
    apply mem_unique.2 (.inr ⟨field, List.mem_filter.2 ⟨?_, rfl⟩⟩)
    simp [split]
  have total := surveyed.census.amount_unique split nodup listed key
  rw [amount_of_get? found] at total
  exact hasInt_of_whole (get?_unique (surveyed.holds key b found) listed) total

variable {q : Query} {p : Pipeline} {config : Config} {front back : List Clause}

/-- The last stage of a query's pipeline counts the surviving events of any history; a unique count of
the query is a verb of the root. -/
theorem surveyed_of_compile (compiled : q.compile = .ok p) (outputs : q.OutputsApart)
    (short : q.clauses.length < 2 ^ 62) (valid : config.validate = .ok ())
    (split : q.clauses = front ++ .countUniqueValues field name :: back) :
    ∃ before after, ∃ t : Session,
      front.mapM Clause.verb = .ok before ∧ back.mapM Clause.verb = .ok after ∧
      p.root.maps = .countDocuments :: before ++ .countUniqueValues field name :: after ∧
      (p.root.maps.filterMap field?).Nodup ∧
      (openAt Store.root p config : Action Error Unit Ingestor).run () {} = (.ok t.1, (), t.2) ∧
      ∀ (ops : List Op) (committed pending : List Document), History t ops committed pending →
        (∀ done, done <+: ops ++ [.commit] → (t.after done).Small) →
        ∃ last, Surveyed p.root.maps {d | .ingest d ∈ ops ++ [.commit]} (committed ++ pending)
          (t.after (ops ++ [.commit])) last := by
  obtain ⟨verbs, read, rfl⟩ := Query.exists_read_of_compile compiled
  have apart := Query.columnsApart_of_read read outputs
  obtain ⟨before, v, after, first, own, later, rfl⟩ := Query.split_of_read read split
  obtain rfl := (Clause.countUniqueValues_iff_of_verb own field name).2 rfl
  obtain ⟨t, ran, surveyed⟩ := surveyed_after_commit apart (Query.plain_of_read read short) valid
  exact ⟨before, after, t, first, later, Query.composition_of_read read,
    (Pipeline.counting_composition apart).apart.nodup, ran, surveyed⟩

/-- After any history, a column counts the different tuples of the values that its verb and the unique
counts behind it have counted in the bucket's events. -/
theorem unique_counts_tuples (compiled : q.compile = .ok p) (outputs : q.OutputsApart)
    (short : q.clauses.length < 2 ^ 62) (valid : config.validate = .ok ())
    (split : q.clauses = front ++ .countUniqueValues field name :: back) :
    ∃ before after, ∃ t : Session,
      front.mapM Clause.verb = .ok before ∧ back.mapM Clause.verb = .ok after ∧
      (openAt Store.root p config : Action Error Unit Ingestor).run () {} = (.ok t.1, (), t.2) ∧
      ∀ (ops : List Op) (committed pending : List Document), History t ops committed pending →
        (∀ done, done <+: ops ++ [.commit] → (t.after done).Small) →
        let kept := t.after (ops ++ [.commit])
        ∀ key b, kept.result? key = some b →
          HasInt b name (distinct (fun d => countedParts (.countUniqueValues field name :: after) (seen before d))
            (eventsOf p.resultKey? (committed ++ pending) key)) := by
  obtain ⟨before, after, t, first, later, verbs, nodup, ran, surveyed⟩ :=
    surveyed_of_compile compiled outputs short valid split
  refine ⟨before, after, t, first, later, ran, ?_⟩
  intro ops committed pending history small kept key b found
  obtain ⟨last, surveyed⟩ := surveyed ops committed pending history small
  -- The count that every pipeline begins with changes no event.
  have tuples := surveyed.hasInt_unique verbs nodup found
  exact tuples

/-- A pair of values is retracted and another comes. -/
theorem unique_counts_tuples_pair_replaced :
    let q : Query := .appliedTo (.countUniqueValues "v" "V") (.alone (.countUniqueValues "u" "U"))
    let p := Pipeline.ofVerbs [.countUniqueValues "u" "U", .countUniqueValues "v" "V"]
    let config : Config := { commitThreshold := 0 }
    let d : Document := ⟨[("u", .int 1), ("v", .int 1)]⟩
    let e : Document := ⟨[("u", .int 1), ("v", .int 2)]⟩
    let f : Document := ⟨[("u", .int 2), ("v", .int 2)]⟩
    q.compile = .ok p ∧
      ∃ t : Session, (openAt Store.root p config : Action Error Unit Ingestor).run () {} = (.ok t.1, (), t.2) ∧
        let kept := t.after [.ingest d, .ingest e, .commit, .uningest d, .ingest f, .commit]
        ∀ b, kept.result? ⟨[.null, .null]⟩ = some b → HasInt b "U" 2 := by
  intro q p config d e f
  have compiled : q.compile = .ok p := rfl
  have outputs : q.OutputsApart := ⟨by decide, by decide⟩
  have apart : ColumnsApart [.countUniqueValues "u" "U", .countUniqueValues "v" "V"] := ⟨by decide, by decide⟩
  have valid : config.validate = .ok () := rfl
  obtain ⟨before, after, t, first, later, ran, counted⟩ :=
    @unique_counts_tuples "u" "U" q p config [] [.countUniqueValues "v" "V"] compiled outputs (by decide) valid rfl
  obtain rfl : before = [] := (Except.ok.inj first).symm
  obtain rfl : after = [.countUniqueValues "v" "V"] := (Except.ok.inj later).symm
  refine ⟨compiled, t, ran, ?_⟩
  have drained : (t.after [.ingest d, .ingest e, .commit]).1.queued = 0 :=
    @queued_after_commit _ apart _ valid _ FaultPlan.never_rootOnly _ ran FaultPlan.never_spares
      [.ingest d, .ingest e] (by decide)
  have committed : History t [.ingest d, .ingest e, .commit] [d, e] [] :=
    ((History.start.ingest d).ingest e).commit.settle drained
  have replaced := (@History.uningest t _ [] [e] [] d d committed (.inl rfl)).ingest f
  intro kept b found
  have total := counted _ _ _ replaced (small_of_openAt apart valid FaultPlan.never_rootOnly ran (by decide)) _ b found
  have pairs : distinct (fun d => countedParts [.countUniqueValues "u" "U", .countUniqueValues "v" "V"] (seen [] d))
      (eventsOf p.resultKey? [e, f] ⟨[.null, .null]⟩) = 2 := by cbv
  change HasInt b "U" (distinct _ (eventsOf _ [e, f] _)) at total
  rw [pairs] at total
  exact total

/-- Of two unique counts, the first counts pairs of values. -/
theorem first_unique_count_counts_pairs :
    let q : Query := .appliedTo (.countUniqueValues "v" "V") (.alone (.countUniqueValues "u" "U"))
    let p := Pipeline.ofVerbs [.countUniqueValues "u" "U", .countUniqueValues "v" "V"]
    let config : Config := { commitThreshold := 0 }
    let d : Document := ⟨[("u", .int 1), ("v", .int 1)]⟩
    let e : Document := ⟨[("u", .int 1), ("v", .int 2)]⟩
    let key : Key := ⟨[.null, .null]⟩
    q.compile = .ok p ∧ q.OutputsApart ∧ distinct (part? · "u") (eventsOf p.resultKey? [d, e] key) = 1 ∧
      ∃ t : Session, (openAt Store.root p config : Action Error Unit Ingestor).run () {} = (.ok t.1, (), t.2) ∧
        ∃ b, (t.after [.ingest d, .ingest e, .commit]).result? key = some b ∧ HasInt b "U" 2 := by
  intro q p config d e key
  have compiled : q.compile = .ok p := rfl
  have outputs : q.OutputsApart := ⟨by decide, by decide⟩
  have apart : ColumnsApart [.countUniqueValues "u" "U", .countUniqueValues "v" "V"] := ⟨by decide, by decide⟩
  have valid : config.validate = .ok () := rfl
  refine ⟨compiled, outputs, by cbv, ?_⟩
  obtain ⟨before, after, t, first, later, verbs, nodup, ran, surveyed⟩ :=
    @surveyed_of_compile "u" "U" q p config [] [.countUniqueValues "v" "V"] compiled outputs (by decide) valid rfl
  obtain rfl : before = [] := (Except.ok.inj first).symm
  obtain rfl : after = [.countUniqueValues "v" "V"] := (Except.ok.inj later).symm
  obtain ⟨last, surveyed⟩ := surveyed _ _ _ (history_map_ingest t [d, e])
    (small_of_openAt apart valid FaultPlan.never_rootOnly ran (by decide))
  have own : mergedKey? p.root.maps (counts p.root.maps) d = some key := by cbv
  obtain ⟨b, found⟩ := surveyed.stored List.mem_cons_self own
  have pairs : distinct (fun d => countedParts [.countUniqueValues "u" "U", .countUniqueValues "v" "V"]
      (seen [.countDocuments] d)) (eventsOf (mergedKey? p.root.maps (counts p.root.maps)) [d, e] key) = 2 := by cbv
  have total := @Surveyed.hasInt_unique _ [.countDocuments] [.countUniqueValues "v" "V"] "u" "U" _ _ _ _ _ _
    surveyed verbs nodup found
  change HasInt b "U" (distinct _ (eventsOf _ [d, e] key)) at total
  rw [pairs] at total
  exact ⟨t, ran, b, found, total⟩

/-- The only unique count of a query is exact after any history: in every bucket its column is the number
of different values of its field, as earlier dates have left it, among the bucket's events. -/
theorem unique_count_exact (compiled : q.compile = .ok p) (outputs : q.OutputsApart)
    (short : q.clauses.length < 2 ^ 62) (valid : config.validate = .ok ())
    (split : q.clauses = front ++ .countUniqueValues field name :: back)
    (only : ∀ source other, .countUniqueValues source other ∉ front ++ back) :
    ∃ before, ∃ t : Session, front.mapM Clause.verb = .ok before ∧
      (openAt Store.root p config : Action Error Unit Ingestor).run () {} = (.ok t.1, (), t.2) ∧
      ∀ (ops : List Op) (committed pending : List Document), History t ops committed pending →
        (∀ done, done <+: ops ++ [.commit] → (t.after done).Small) →
        let kept := t.after (ops ++ [.commit])
        (∀ d ∈ committed ++ pending, ∀ key, p.resultKey? d = some key → ∃ b, kept.result? key = some b) ∧
        ∀ key b, kept.result? key = some b →
          HasInt b name (distinct (fun d => part? (seen before d) field)
            (eventsOf p.resultKey? (committed ++ pending) key)) := by
  obtain ⟨before, after, t, first, later, verbs, nodup, ran, surveyed⟩ :=
    surveyed_of_compile compiled outputs short valid split
  -- No other verb counts unique values, so the tuples are of one value.
  have none : counts after = [] := by
    apply List.eq_nil_iff_forall_not_mem.2
    intro other mem
    obtain ⟨source, mem⟩ := mem_counts.1 mem
    obtain ⟨clause, listed, made⟩ := Clause.exists_of_mem_verbs later mem
    rw [(Clause.countUniqueValues_iff_of_verb made source other).1 rfl] at listed
    exact only source other (List.mem_append_right _ listed)
  have accepted : ∀ d key, p.resultKey? d = some key →
      ∃ own, (Stage.root (.countDocuments :: before ++ .countUniqueValues field name :: after)).key? d = some own := by
    intro d key own
    rw [← verbs]
    exact (mergedKey?_eq_some.1 own).1
  refine ⟨before, t, first, ran, ?_⟩
  intro ops committed pending history small kept
  obtain ⟨last, surveyed⟩ := surveyed ops committed pending history small
  constructor
  · intro d mem key own
    exact surveyed.stored mem own
  · intro key b found
    have tuples := surveyed.hasInt_unique verbs nodup found
    change HasInt b name (distinct _ (eventsOf p.resultKey? (committed ++ pending) key)) at tuples
    rw [distinct_countedParts none key accepted] at tuples
    exact tuples

/-- A value leaves under two index values and returns under one of them. -/
theorem unique_count_exact_value_returns :
    let q : Query := .appliedTo (.countUniqueValues "day" "D") (.appliedTo (.brokenDownBy "a" "A")
      (.appliedTo (.transformDateFormat "t" "day" "Days") (.alone (.indexedBy "i"))))
    let p := Pipeline.ofVerbs [.indexedBy "i", .transformDateFormat "t" "day" .days, .brokenDownBy "a" "A",
      .countUniqueValues "day" "D"]
    let config : Config := { commitThreshold := 0 }
    let d : Document := ⟨[("a", .text "x"), ("i", .int 1), ("t", .text "2024-01-01T08:00:00Z")]⟩
    let e : Document := ⟨[("a", .text "x"), ("i", .int 2), ("t", .text "2024-01-01T20:00:00Z")]⟩
    let f : Document := ⟨[("a", .text "x"), ("i", .int 1), ("t", .text "2024-01-02T08:00:00Z")]⟩
    q.compile = .ok p ∧
      ∃ t : Session, (openAt Store.root p config : Action Error Unit Ingestor).run () {} = (.ok t.1, (), t.2) ∧
        let kept := t.after [.ingest d, .ingest e, .ingest f, .commit, .uningest d, .uningest e, .ingest e, .commit]
        ∃ b, kept.result? ⟨[.text "x", .null]⟩ = some b ∧ HasInt b "D" 2 := by
  intro q p config d e f
  have compiled : q.compile = .ok p := rfl
  have outputs : q.OutputsApart := ⟨by decide, by decide⟩
  have apart : ColumnsApart [.indexedBy "i", .transformDateFormat "t" "day" .days, .brokenDownBy "a" "A",
    .countUniqueValues "day" "D"] := ⟨by decide, by decide⟩
  have valid : config.validate = .ok () := rfl
  obtain ⟨before, t, read, ran, exact_⟩ := @unique_count_exact "day" "D" q p config
    [.indexedBy "i", .transformDateFormat "t" "day" "Days", .brokenDownBy "a" "A"] [] compiled outputs (by decide) valid
    rfl (by simp)
  refine ⟨compiled, t, ran, ?_⟩
  have drained : (t.after [.ingest d, .ingest e, .ingest f, .commit]).1.queued = 0 :=
    @queued_after_commit _ apart _ valid _ FaultPlan.never_rootOnly _ ran FaultPlan.never_spares
      [.ingest d, .ingest e, .ingest f] (by decide)
  have committed : History t [.ingest d, .ingest e, .ingest f, .commit] [d, e, f] [] :=
    (((History.start.ingest d).ingest e).ingest f).commit.settle drained
  have left := @History.uningest t _ [] [e, f] [] d d committed (.inl rfl)
  have returned := (@History.uningest t _ [] [f] [] e e left (.inl rfl)).ingest e
  obtain ⟨stored, counted⟩ := exact_ _ _ _ returned
    (small_of_openAt apart valid FaultPlan.never_rootOnly ran (by decide))
  have own : p.resultKey? f = some ⟨[.text "x", .null]⟩ := by cbv
  obtain ⟨b, found⟩ := stored f (by simp) _ own
  refine ⟨b, found, ?_⟩
  obtain rfl : before = [.indexedBy "i", .transformDateFormat "t" "day" .days, .brokenDownBy "a" "A"] :=
    (Except.ok.inj read).symm
  have days : distinct (fun d => part? (seen [.indexedBy "i", .transformDateFormat "t" "day" .days,
      .brokenDownBy "a" "A"] d) "day") (eventsOf p.resultKey? [f, e] ⟨[.text "x", .null]⟩) = 2 := by cbv
  have total := counted _ b found
  rw [show ([] ++ [f]) ++ ([] ++ [e]) = [f, e] from rfl, days] at total
  exact total

end Ingestor

end Rollup
