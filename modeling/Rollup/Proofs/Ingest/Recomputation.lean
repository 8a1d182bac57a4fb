import Rollup.Proofs.Ingest.Folding
import Rollup.Proofs.Ingest.Histories
import Rollup.Proofs.Query

/-!
# Incremental maintenance is recomputation

After any history, every stage has the buckets that a fresh ingestor makes of the survivors alone,
and besides them at most buckets that count nothing.  The roots agree because both count survivors
(`Covers.of_tallied`); stages in step with stages that agree agree as well (`Covers.next`).
-/

namespace Rollup

/-- The column of a unique count, whether it has been merged or not. -/
def Verb.unique? : Verb → Option String
  | countUniqueValues _ name | uniqueTally name => some name
  | _ => none

theorem Verb.mem_unique {reduces : List Verb} {name : String} :
    name ∈ reduces.filterMap unique? ↔
      .uniqueTally name ∈ reduces ∨ ∃ source, .countUniqueValues source name ∈ reduces := by
  rw [List.mem_filterMap]
  constructor
  · rintro ⟨v, mem, own⟩
    cases v with
    | countUniqueValues source other =>
      obtain rfl := Option.some.inj own
      exact .inr ⟨source, mem⟩
    | uniqueTally other =>
      obtain rfl := Option.some.inj own
      exact .inl mem
    | countDocuments | only _ _ | brokenDownBy _ _ | sum _ _ | mean _ _ | indexedBy _
    | transformDateFormat _ _ _ | dropIndex => cases own
  · rintro (mem | ⟨source, mem⟩)
    · exact ⟨_, mem, rfl⟩
    · exact ⟨_, mem, rfl⟩

/-- What some verbs break down and count, the stage does as well. -/
structure Stage.Keeps (reduces : List Verb) (stage : Stage) : Prop where
  unique : stage.reduces.filterMap Verb.unique? = reduces.filterMap Verb.unique?
  breakdown : ∀ field name, .brokenDownBy field name ∈ reduces → .brokenDownBy field name ∈ stage.reduces

theorem Stage.Keeps.refl (stage : Stage) : stage.Keeps stage.reduces := ⟨rfl, fun _ _ mem => mem⟩

/-- A key tells one part for a slot. -/
theorem Tells.part_eq {index slot : Nat} {key : Key} {value value' : Value}
    (tells : Tells index slot key value) (tells' : Tells index slot key value') :
    ∃ part, KeyPart.ofValue? value = some part ∧ KeyPart.ofValue? value' = some part := by
  obtain ⟨draft, part, length, parts, found, own⟩ := tells
  obtain ⟨draft', part', length', parts', found', own'⟩ := tells'
  have emptiness : draft.index = [] ↔ draft'.index = [] := by
    rw [← List.length_eq_zero_iff, ← List.length_eq_zero_iff, length, length']
  have marker : draft.marker = draft'.marker := by
    simp only [Draft.marker, emptiness, length, length']
  have same : draft.index ++ draft.normal = draft'.index ++ draft'.normal := by
    have whole := parts.symm.trans parts'
    rw [marker] at whole
    exact List.append_cancel_right whole
  obtain ⟨-, normal⟩ := List.append_inj same (length.trans length'.symm)
  rw [normal, found'] at found
  obtain rfl := Option.some.inj found
  exact ⟨part', own, own'⟩

namespace Ingest

open Document

section Covers

variable {verbs : List Verb} {parent child : Stage} {b fresh c c' : Buckets} {route route' : Key → Option Key}

/-- A unique count that is still to be merged follows the count. -/
theorem amount_of_presence {stage : Stage}
    (holds : ∀ key d, b.get? key = some d → stage.Holds verbs key d) {source name : String}
    (counted : .countUniqueValues source name ∈ stage.reduces) (key : Key) :
    amount b name key = if 0 < amount b Field.count key then 1 else 0 := by
  cases found : b.get? key with
  | none =>
    rw [amount, amount, found]
    rfl
  | some d =>
    rw [amount_of_get? found, amount_of_get? found,
      whole_of_int ((holds key d found).presence source name counted)]
    split <;> rfl

/-- A scope has the buckets of another, with their counts and unique counts, and besides them only
buckets that count nothing. -/
structure Covers (stage : Stage) (b fresh : Buckets) : Prop where
  domain : domain fresh ⊆ domain b
  count : ∀ key, amount b Field.count key = amount fresh Field.count key
  unique : ∀ name ∈ stage.reduces.filterMap Verb.unique?, ∀ key, amount b name key = amount fresh name key

theorem Covers.of_linear {stage : Stage} (domain : Ingest.domain fresh ⊆ Ingest.domain b)
    (linear : ∀ field, Linear stage.reduces field → ∀ key, amount b field key = amount fresh field key)
    (holds : ∀ key d, b.get? key = some d → stage.Holds verbs key d)
    (holds' : ∀ key d, fresh.get? key = some d → stage.Holds verbs key d) : Covers stage b fresh := by
  refine ⟨domain, linear _ (.inl rfl), fun name mem key => ?_⟩
  rcases Verb.mem_unique.1 mem with tally | ⟨source, counted⟩
  · exact linear name (.inr tally) key
  · rw [amount_of_presence holds counted, amount_of_presence holds' counted, linear _ (.inl rfl)]

theorem Merges.route_eq_of_map? (merges : Merges verbs parent child route) {key : Key} {d : Document}
    (reads : parent.Reads verbs key d)
    (made : child.map? (Stage.tagged key d) = (route' key).map fun key' => (key', Stage.untagged key d)) :
    route key = route' key := by
  have made := (merges.map? key d reads).symm.trans made
  cases first : route key <;> cases second : route' key <;> simp_all

theorem Merges.route_eq (merges : Merges verbs parent child route) (merges' : Merges verbs parent child route')
    {key : Key} {d : Document} (reads : parent.Reads verbs key d) : route key = route' key :=
  Merges.route_eq_of_map? merges reads (merges'.map? key d reads)

/-- Stages in step with stages that agree agree as well. -/
theorem Covers.next (covers : Covers parent b fresh) (merges : Merges verbs parent child route)
    (merges' : Merges verbs parent child route') (inStep : InStep child route b c)
    (inStep' : InStep child route' fresh c')
    (holds : ∀ key d, b.get? key = some d → parent.Holds verbs key d)
    (child_holds : ∀ key d, c.get? key = some d → child.Holds verbs key d)
    (child_holds' : ∀ key d, c'.get? key = some d → child.Holds verbs key d) : Covers child c c' := by
  have routes : ∀ key ∈ Ingest.domain b, route key = route' key := by
    intro key mem
    obtain ⟨d, found⟩ := mem_domain.1 mem
    exact Merges.route_eq merges merges' (holds key d found).toReadable
  refine Covers.of_linear ?_ (fun field linear key' => ?_) child_holds child_holds'
  · intro key' mem
    obtain ⟨key, stored, routed⟩ := (inStep'.domain key').1 mem
    exact (inStep.domain key').2 ⟨key, covers.domain stored, (routes key (covers.domain stored)).trans routed⟩
  · have amounts : ∀ key, amount b field key = amount fresh field key := by
      rcases merges.linear field linear with (rfl | tally) | ⟨source, counted⟩
      · exact covers.count
      · exact covers.unique field (Verb.mem_unique.2 (.inl tally))
      · exact covers.unique field (Verb.mem_unique.2 (.inr ⟨source, counted⟩))
    rw [inStep.amount field linear, inStep'.amount field linear,
      inflow_subset covers.domain fun key missing => amount_of_not_mem missing field]
    refine Finset.sum_congr rfl fun key mem => ?_
    rw [routes key mem, amounts]

end Covers

/-! ## Stores -/

/-- A bucket is the same as another, but for sums and means. -/
structure Agrees (stage : Stage) (d fresh : Document) : Prop where
  count : d.get? Field.count = fresh.get? Field.count
  unique : ∀ name ∈ stage.reduces.filterMap Verb.unique?, d.get? name = fresh.get? name
  breakdown : ∀ source name, .brokenDownBy source name ∈ stage.reduces →
    ∃ part, part? d name = some part ∧ part? fresh name = some part

/-- A bucket counts nothing. -/
structure Void (stage : Stage) (d : Document) : Prop where
  count : d.get? Field.count = some (.int 0)
  unique : ∀ name ∈ stage.reduces.filterMap Verb.unique?, d.get? name = some (.int 0)

/-- A stage of one store has what the same stage has in a fresh one, and besides only buckets that
count nothing. -/
structure Recomputes (s fresh : Store) (site site' : Site) : Prop where
  stage : site.stage = site'.stage
  present : ∀ key d', fresh.get? site'.scope key = some d' →
    ∃ d, s.get? site.scope key = some d ∧ Agrees site.stage d d'
  void : ∀ key d, s.get? site.scope key = some d → fresh.get? site'.scope key = none → Void site.stage d

theorem get?_unique {verbs : List Verb} {stage : Stage} {key : Key} {d : Document}
    (holds : stage.Holds verbs key d) {name : String} (mem : name ∈ stage.reduces.filterMap Verb.unique?) :
    ∃ n, d.get? name = some (.int n) := by
  rcases Verb.mem_unique.1 mem with tally | ⟨source, counted⟩
  · exact holds.tallied name tally
  · exact ⟨_, holds.presence source name counted⟩

theorem get?_eq_of_whole {d e : Document} {field : String} (own : ∃ n, d.get? field = some (.int n))
    (other : ∃ n, e.get? field = some (.int n)) (same : whole d field = whole e field) :
    d.get? field = e.get? field := by
  obtain ⟨m, found⟩ := own
  obtain ⟨n, found'⟩ := other
  rw [whole_of_int found, whole_of_int found'] at same
  rw [found, found', Int64.toInt_inj.1 same]

theorem get?_eq_zero {d : Document} {field : String} (own : ∃ n, d.get? field = some (.int n))
    (zero : whole d field = 0) : d.get? field = some (.int 0) := by
  obtain ⟨n, found⟩ := own
  rw [whole_of_int found] at zero
  rw [found, Int64.toInt_inj.1 (zero.trans (by rfl : (0 : Int) = (0 : Int64).toInt))]

/-- Buckets under one key agree, be they of different stages, if they count the same. -/
theorem agrees_of_holds {verbs verbs' : List Verb} (plain : Plain verbs) (plain' : Plain verbs')
    {stage stage' kept : Stage} (keeps : stage.Keeps kept.reduces) (keeps' : stage'.Keeps kept.reduces)
    (index : stage.maps.countP Verb.isIndex = stage'.maps.countP Verb.isIndex)
    (slot : ∀ name, Verb.keySlot verbs name = Verb.keySlot verbs' name) {key : Key} {d d' : Document}
    (own : stage.Holds verbs key d) (own' : stage'.Holds verbs' key d')
    (count : whole d Field.count = whole d' Field.count)
    (unique : ∀ name ∈ kept.reduces.filterMap Verb.unique?, whole d name = whole d' name) : Agrees kept d d' := by
  refine ⟨get?_eq_of_whole own.count own'.count count, fun name mem => ?_, fun source name mem => ?_⟩
  · exact get?_eq_of_whole (get?_unique own (keeps.unique ▸ mem)) (get?_unique own' (keeps'.unique ▸ mem))
      (unique name mem)
  · obtain ⟨value, stored, told⟩ := own.breakdown source name (keeps.breakdown source name mem)
    obtain ⟨value', stored', told'⟩ := own'.breakdown source name (keeps'.breakdown source name mem)
    have tells := told plain
    rw [index, slot] at tells
    obtain ⟨part, made, made'⟩ := tells.part_eq (told' plain')
    exact ⟨part, by rw [part?, stored, Option.bind_some, made], by rw [part?, stored', Option.bind_some, made']⟩

theorem recomputes_of_covers {verbs : List Verb} (plain : Plain verbs) {s fresh : Store} {site site' : Site}
    (stage : site.stage = site'.stage)
    (covers : Covers site.stage (s.buckets site.scope) (fresh.buckets site'.scope))
    (holds : ∀ key d, (s.buckets site.scope).get? key = some d → site.stage.Holds verbs key d)
    (holds' : ∀ key d, (fresh.buckets site'.scope).get? key = some d → site'.stage.Holds verbs key d) :
    Recomputes s fresh site site' := by
  refine ⟨stage, fun key d' found' => ?_, fun key d found missing => ?_⟩
  · rw [Store.get?_eq] at found'
    obtain ⟨d, found⟩ := mem_domain.1 (covers.domain (mem_domain.2 ⟨d', found'⟩))
    have own := holds key d found
    have own' := holds' key d' found'
    rw [← stage] at own'
    have amounts : ∀ {field}, amount (s.buckets site.scope) field key =
        amount (fresh.buckets site'.scope) field key → whole d field = whole d' field := by
      intro field same
      rwa [amount_of_get? found, amount_of_get? found'] at same
    exact ⟨d, found, agrees_of_holds plain plain (.refl _) (.refl _) rfl (fun _ => rfl) own own'
      (amounts (covers.count key)) fun name mem => amounts (covers.unique name mem key)⟩
  · rw [Store.get?_eq] at found missing
    have none : key ∉ domain (fresh.buckets site'.scope) := by
      intro mem
      obtain ⟨d', found'⟩ := mem_domain.1 mem
      exact absurd (found'.symm.trans missing) (Option.some_ne_none d')
    have zero : ∀ {field}, amount (s.buckets site.scope) field key =
        amount (fresh.buckets site'.scope) field key → whole d field = 0 := by
      intro field same
      rwa [amount_of_get? found, amount_of_not_mem none] at same
    refine ⟨?_, fun name mem => ?_⟩
    · exact get?_eq_zero (holds key d found).count (zero (covers.count key))
    · exact get?_eq_zero (get?_unique (holds key d found) mem) (zero (covers.unique name mem key))

/-- Linked chains recompute one another if their heads do. -/
theorem forall₂_recomputes {verbs : List Verb} (plain : Plain verbs) {s fresh : Store} {site site' : Site}
    {sites sites' : List Site}
    (stages : (site :: sites).map Site.stage = (site' :: sites').map Site.stage)
    (covers : Covers site.stage (s.buckets site.scope) (fresh.buckets site'.scope))
    (holds : ∀ key d, (s.buckets site.scope).get? key = some d → site.stage.Holds verbs key d)
    (holds' : ∀ key d, (fresh.buckets site'.scope).get? key = some d → site'.stage.Holds verbs key d)
    (linked : Linked verbs s site.stage (s.buckets site.scope) sites)
    (linked' : Linked verbs fresh site'.stage (fresh.buckets site'.scope) sites') :
    List.Forall₂ (Recomputes s fresh) (site :: sites) (site' :: sites') := by
  induction sites generalizing site site' sites' with
  | nil =>
    cases sites' with
    | cons _ _ => simp at stages
    | nil =>
      have head := recomputes_of_covers plain (List.cons.inj stages).1 covers holds holds'
      exact .cons head .nil
  | cons child rest ih =>
    cases sites' with
    | nil => simp at stages
    | cons child' rest' =>
      obtain ⟨stage, later⟩ := List.cons.inj stages
      have head := recomputes_of_covers plain stage covers holds holds'
      obtain ⟨⟨route, merges, inStep⟩, child_holds, linked⟩ := linked
      obtain ⟨⟨route', merges', inStep'⟩, child_holds', linked'⟩ := linked'
      have same : child.stage = child'.stage := (List.cons.inj later).1
      rw [← stage] at merges'
      have tail := ih later (covers.next merges (same ▸ merges') inStep (same ▸ inStep') holds child_holds
        (same ▸ child_holds')) child_holds child_holds' linked linked'
      exact .cons head tail

end Ingest

namespace Ingestor

open Ingest Document

/-! ## Sessions -/

theorem history_map_ingest (t : Session) (docs : List Document) : History t (docs.map .ingest) [] docs := by
  induction docs using List.reverseRecOn with
  | nil => exact .start
  | append_singleton docs d ih =>
    rw [List.map_append]
    exact ih.ingest d

/-- A root covers another that has no other buckets and counts the same. -/
theorem covers_of_count {verbs : List Verb} {root : Stage} {b fresh : Ingest.Buckets}
    (grounded : Grounded verbs root b {}) (grounded' : Grounded verbs root fresh {})
    (domain : Ingest.domain fresh ⊆ Ingest.domain b)
    (count : ∀ key, amount b Field.count key = amount fresh Field.count key) : Covers root b fresh := by
  refine Covers.of_linear domain (fun field linear key => ?_) grounded.holds grounded'.holds
  rcases linear with rfl | tally
  · exact count key
  · have zero := natAbs_amount_le b field key
    have zero' := natAbs_amount_le fresh field key
    rw [grounded.untallied field tally] at zero
    rw [grounded'.untallied field tally] at zero'
    omega

/-- A root that counts survivors covers a root that counts them afresh. -/
theorem covers_of_tallied {verbs : List Verb} {root : Stage} {b fresh : Ingest.Buckets}
    {committed pending docs : List Document} (perm : docs.Perm (committed ++ pending))
    (grounded : Grounded verbs root b {}) (grounded' : Grounded verbs root fresh {})
    (tallied : Tallied root {} b committed pending) (tallied' : Tallied root {} fresh [] docs)
    (origin : ∀ key ∈ domain fresh, ∃ d ∈ docs, root.key? d = some key) : Covers root b fresh := by
  refine covers_of_count grounded grounded' (fun key mem => ?_) (fun key => ?_)
  · obtain ⟨d, member, own⟩ := origin key mem
    rcases List.mem_append.1 (perm.subset member) with mem | mem
    · exact tallied.committed_stored d mem key own
    · exact (tallied.pending_stored d mem key own).resolve_right fun filled => filled rfl
  · have count := tallied.count key
    have count' := tallied'.count key
    have same : members root docs key = members root (committed ++ pending) key := perm.countP_eq _
    rw [List.nil_append, same] at count'
    have length : (docsOf ({} : Queues).additions key).length = 0 := rfl
    have length' : (docsOf ({} : Queues).retractions key).length = 0 := rfl
    omega

/-- After any history and a commit, every stage has what a fresh ingestor makes of the surviving
documents alone, whatever their order, and besides it only buckets that count nothing.  Sessions stay
`Small`, so that their amounts add up exactly as doubles. -/
theorem commit_recomputes {q : Query} {p : Pipeline} (compiled : q.compile = .ok p)
    (outputs : q.OutputsApart) (short : q.clauses.length < 2 ^ 62) {config config' : Config}
    (valid : config.validate = .ok ()) (valid' : config'.validate = .ok ()) :
    ∃ t t' : Session,
      (openAt Store.root p config : Action Error Unit Ingestor).run () {} = (.ok t.1, (), t.2) ∧
      (openAt Store.root p config' : Action Error Unit Ingestor).run () {} = (.ok t'.1, (), t'.2) ∧
      ∀ (ops : List Op) (committed pending docs : List Document), History t ops committed pending →
        docs.Perm (committed ++ pending) →
        (∀ done, done <+: ops ++ [.commit] → (t.after done).Small) →
        (∀ done, done <+: docs.map .ingest ++ [.commit] → (t'.after done).Small) →
        let kept := t.after (ops ++ [.commit])
        let fresh := t'.after (docs.map .ingest ++ [.commit])
        kept.1.sites.map Site.stage = p.stages ∧
          List.Forall₂ (Recomputes kept.2.store fresh.2.store) kept.1.sites fresh.1.sites := by
  obtain ⟨verbs, rfl, apart, plain⟩ := Query.exists_verbs_of_compile compiled outputs short
  obtain ⟨t, ran, stages, plan, root, behindSites, sound, empty⟩ :=
    opened apart valid FaultPlan.never_rootOnly
  obtain ⟨t', ran', stages', plan', root', behindSites', sound', empty'⟩ :=
    opened apart valid' FaultPlan.never_rootOnly
  refine ⟨t, t', ran, ran', fun ops committed pending docs history perm small small' => ?_⟩
  -- Documents that are equal as values have the same key, whatever the order of their fields.
  have same_key : ∀ d e, Same d e → (Stage.root (Pipeline.composition verbs)).key? d =
      (Stage.root (Pipeline.composition verbs)).key? e := fun d e => Stage.key?_of_same plain.unchained
  obtain ⟨sound₁, tallied⟩ := tallied_after_commit (by rw [sound.stage]; exact same_key) sound (empty _)
    (plan ▸ FaultPlan.never_spares _) small history
  obtain ⟨sound₁', tallied'⟩ := tallied_after_commit (by rw [sound'.stage]; exact same_key) sound' (empty' _)
    (plan' ▸ FaultPlan.never_spares _) small' (history_map_ingest t' docs)
  obtain ⟨q', sound₂, -, origins⟩ := ingested_of_bucket sound' (empty' _) (plan' ▸ FaultPlan.never_spares _) small'
  have root_eq : root.stage = root'.stage := sound.stage.trans sound'.stage.symm
  have origin : ∀ key ∈ domain ((t'.after (docs.map .ingest ++ [.commit])).2.store.buckets root'.scope),
      ∃ d ∈ docs, root'.stage.key? d = some key := by
    intro key mem
    obtain ⟨d, ingested, own⟩ := origins key (.inl mem)
    rcases List.mem_append.1 ingested with listed | last
    · obtain ⟨d', member, same⟩ := List.mem_map.1 listed
      cases same
      exact ⟨d, member, own⟩
    · cases List.mem_singleton.1 last
  intro kept fresh
  have covers : Covers root.stage (kept.2.store.buckets root.scope) (fresh.2.store.buckets root'.scope) :=
    covers_of_tallied perm sound₁.standing.grounded (root_eq ▸ sound₁'.standing.grounded) tallied
      (root_eq ▸ tallied') (root_eq ▸ origin)
  have same_stages : (root :: behindSites).map Site.stage = (root' :: behindSites').map Site.stage := by
    rw [← sound.sites, ← sound'.sites, stages, stages']
  rw [show kept.1.sites = _ from sound₁.sites, show fresh.1.sites = _ from sound₁'.sites]
  refine ⟨by rw [← sound.sites, stages], ?_⟩
  exact forall₂_recomputes plain same_stages covers sound₁.standing.grounded.holds
    sound₁'.standing.grounded.holds sound₁.standing.linked sound₁'.standing.linked

/-- A value is retracted that another document of the bucket still has. -/
theorem commit_recomputes_value_retracted :
    let q : Query := .appliedTo (.countUniqueValues "u" "U") (.alone (.brokenDownBy "a" "A"))
    let p := Pipeline.ofVerbs [.brokenDownBy "a" "A", .countUniqueValues "u" "U"]
    let config : Config := { commitThreshold := 0 }
    let d : Document := ⟨[("a", .text "x"), ("u", .int 1)]⟩
    let e : Document := ⟨[("a", .text "y"), ("u", .int 1)]⟩
    q.compile = .ok p ∧
      ∃ t t' : Session,
        (openAt Store.root p config : Action Error Unit Ingestor).run () {} = (.ok t.1, (), t.2) ∧
        (openAt Store.root p config : Action Error Unit Ingestor).run () {} = (.ok t'.1, (), t'.2) ∧
        let kept := t.after [.ingest d, .ingest e, .commit, .uningest d, .ingest d, .commit]
        let fresh := t'.after [.ingest d, .ingest e, .commit]
        List.Forall₂ (Recomputes kept.2.store fresh.2.store) kept.1.sites fresh.1.sites := by
  intro q p config d e
  have compiled : q.compile = .ok p := rfl
  have outputs : q.OutputsApart := ⟨by decide, by decide⟩
  have apart : ColumnsApart [.brokenDownBy "a" "A", .countUniqueValues "u" "U"] := ⟨by decide, by decide⟩
  have valid : config.validate = .ok () := rfl
  obtain ⟨t, t', ran, ran', recomputes⟩ := commit_recomputes compiled outputs (by decide) valid valid
  refine ⟨compiled, t, t', ran, ran', ?_⟩
  have drained : (t.after [.ingest d, .ingest e, .commit]).1.queued = 0 :=
    @queued_after_commit _ apart _ valid _ FaultPlan.never_rootOnly _ ran FaultPlan.never_spares
      [.ingest d, .ingest e] (by decide)
  have history : History t [.ingest d, .ingest e, .commit] [d, e] [] :=
    ((History.start.ingest d).ingest e).commit.settle drained
  have retracted := (@History.uningest t _ [] [e] [] d d history (.inl rfl)).ingest d
  exact (recomputes _ _ _ [d, e] retracted (List.Perm.swap e d [])
    (small_of_openAt apart valid FaultPlan.never_rootOnly ran (by decide))
    (small_of_openAt apart valid FaultPlan.never_rootOnly ran' (by decide))).2

end Ingestor

end Rollup
