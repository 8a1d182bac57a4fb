import Rollup.Proofs.Ingest.Recomputation
import Rollup.Proofs.Verb.Parts

/-!
# What buckets count, in terms of events

A bucket counts the events whose key goes to it, and its column of a unique count is the number of
different keys that those events had when the count was last unmerged (`Census`).  A stage adds up
the columns of the buckets that it merges; no key is counted twice, because an earlier key tells the
later one.
-/

namespace Rollup

theorem Counting.tally_ne_count {reduces : List Verb} (counting : Counting reduces) {name : String}
    (mem : .uniqueTally name ∈ reduces) : name ≠ Field.count := by
  rintro rfl
  obtain ⟨rest, rfl⟩ := counting.head
  have nodup := counting.apart.nodup
  rw [List.filterMap_cons] at nodup
  have later : .uniqueTally Field.count ∈ rest := by simpa using mem
  exact (List.nodup_cons.1 nodup).1 (List.mem_filterMap.2 ⟨_, later, rfl⟩)

namespace Ingest

open Document Verb

/-! ## Different values -/

/-- The number of different values that a function takes on documents. -/
def distinct {α : Type} [DecidableEq α] (f : Document → α) (docs : List Document) : Nat :=
  (docs.map f).toFinset.card

section Distinct

variable {α β : Type} [DecidableEq α] [DecidableEq β] {f : Document → α} {g : Document → β}
  {docs : List Document}

theorem distinct_cons (d : Document) :
    distinct f (d :: docs) = distinct f docs + if ∃ e ∈ docs, f e = f d then 0 else 1 := by
  simp only [distinct, List.map_cons, List.toFinset_cons, Finset.card_insert_eq_ite, List.mem_toFinset,
    List.mem_map]
  split <;> rfl

/-- Functions that tell the same documents apart take equally many values. -/
theorem distinct_congr (same : ∀ d ∈ docs, ∀ e ∈ docs, f d = f e ↔ g d = g e) :
    distinct f docs = distinct g docs := by
  induction docs with
  | nil => rfl
  | cons d rest ih =>
    have later : ∀ d ∈ rest, ∀ e ∈ rest, f d = f e ↔ g d = g e := by
      intro a first b second
      exact same a (List.mem_cons_of_mem d first) b (List.mem_cons_of_mem d second)
    have repeated : (∃ e ∈ rest, f e = f d) ↔ ∃ e ∈ rest, g e = g d := by
      apply exists_congr
      intro e
      apply and_congr_right
      intro mem
      exact same e (List.mem_cons_of_mem d mem) d List.mem_cons_self
    rw [distinct_cons, distinct_cons, ih later]
    simp only [repeated]

theorem distinct_of_constant {a : α} (constant : ∀ d ∈ docs, f d = a) :
    distinct f docs = if docs = [] then 0 else 1 := by
  induction docs with
  | nil => rfl
  | cons d rest ih =>
    rw [distinct_cons, ih fun e mem => constant e (List.mem_cons_of_mem d mem),
      if_neg (List.cons_ne_nil d rest)]
    cases rest with
    | nil => simp
    | cons e more =>
      have repeated : ∃ e' ∈ e :: more, f e' = f d := by
        refine ⟨e, List.mem_cons_self, ?_⟩
        rw [constant d List.mem_cons_self, constant e (by simp)]
      rw [if_neg (List.cons_ne_nil e more), if_pos repeated]

end Distinct

/-! ## Events of a bucket -/

/-- The events that belong to a bucket. -/
def eventsOf (keyOf : Document → Option Key) (docs : List Document) (key : Key) : List Document :=
  docs.filter fun d => keyOf d = some key

theorem mem_eventsOf {keyOf : Document → Option Key} {docs : List Document} {key : Key} {d : Document} :
    d ∈ eventsOf keyOf docs key ↔ d ∈ docs ∧ keyOf d = some key := by
  simp [eventsOf]

theorem length_eventsOf_cons (keyOf : Document → Option Key) (d : Document) (docs : List Document) (key : Key) :
    (eventsOf keyOf (d :: docs) key).length =
      (if keyOf d = some key then 1 else 0) + (eventsOf keyOf docs key).length := by
  by_cases here : keyOf d = some key
  · simp [eventsOf, here, Nat.add_comm]
  · simp [eventsOf, here]

/-- The events of one bucket have one key. -/
theorem distinct_eventsOf_self (keyOf : Document → Option Key) (docs : List Document) (key : Key) :
    distinct keyOf (eventsOf keyOf docs key) = if 0 < (eventsOf keyOf docs key).length then 1 else 0 := by
  rw [distinct_of_constant fun d mem => (mem_eventsOf.1 mem).2]
  cases eventsOf keyOf docs key <;> simp

section Fibers

variable {keyOf keyOf' : Document → Option Key} {route : Key → Option Key} {keys : Finset Key}
  {docs : List Document}

/-- Events of a merged bucket come from the buckets that go there. -/
theorem length_fibers (stored : ∀ d ∈ docs, ∀ key, keyOf d = some key → key ∈ keys)
    (routed : ∀ d ∈ docs, (keyOf d).bind route = keyOf' d) (key' : Key) :
    (eventsOf keyOf' docs key').length =
      inflow route keys (fun key => (eventsOf keyOf docs key).length) key' := by
  induction docs with
  | nil => simp [eventsOf, inflow]
  | cons d rest ih =>
    simp only [length_eventsOf_cons]
    rw [inflow_add, ih (fun e mem => stored e (List.mem_cons_of_mem d mem))
      fun e mem => routed e (List.mem_cons_of_mem d mem), ← routed d List.mem_cons_self]
    congr 1
    cases own : keyOf d with
    | none => simp [inflow]
    | some key =>
      have here := stored d List.mem_cons_self key own
      simp only [inflow, Option.bind_some, Option.some.injEq]
      rw [Finset.sum_eq_single key]
      · simp
      · intro other _ apart
        simp [apart.symm]
      · intro missing
        exact absurd here missing

/-- A label that tells the bucket has as many values on a merged bucket as on those that go there. -/
theorem distinct_fibers {α : Type} [DecidableEq α] {label : Document → α}
    (stored : ∀ d ∈ docs, ∀ key, keyOf d = some key → key ∈ keys)
    (fine : ∀ d ∈ docs, ∀ e ∈ docs, label d = label e → keyOf d = keyOf e)
    (routed : ∀ d ∈ docs, (keyOf d).bind route = keyOf' d) (key' : Key) :
    distinct label (eventsOf keyOf' docs key') =
      inflow route keys (fun key => distinct label (eventsOf keyOf docs key)) key' := by
  have pieces : ((eventsOf keyOf' docs key').map label).toFinset =
      (keys.filter fun key => route key = some key').biUnion fun key =>
        ((eventsOf keyOf docs key).map label).toFinset := by
    ext value
    simp only [List.mem_toFinset, List.mem_map, mem_eventsOf, Finset.mem_biUnion, Finset.mem_filter]
    constructor
    · rintro ⟨d, ⟨mem, own⟩, rfl⟩
      rw [← routed d mem, Option.bind_eq_some_iff] at own
      obtain ⟨key, own, goes⟩ := own
      exact ⟨key, ⟨stored d mem key own, goes⟩, d, ⟨mem, own⟩, rfl⟩
    · rintro ⟨key, ⟨-, goes⟩, d, ⟨mem, own⟩, rfl⟩
      refine ⟨d, ⟨mem, ?_⟩, rfl⟩
      rw [← routed d mem, own, Option.bind_some, goes]
  rw [inflow, ← Finset.sum_filter, distinct, pieces, Finset.card_biUnion]
  · rfl
  · intro key _ other _ apart
    simp only [Function.onFun, Finset.disjoint_left, List.mem_toFinset, List.mem_map, mem_eventsOf]
    rintro _ ⟨d, ⟨mem, own⟩, rfl⟩ ⟨e, ⟨mem', own'⟩, same⟩
    have keys_eq := fine e mem' d mem same
    rw [own, own'] at keys_eq
    exact apart (Option.some.inj keys_eq).symm

theorem inflow_natCast (f : Key → Nat) (key' : Key) :
    inflow route keys (fun key => (f key : Int)) key' = (inflow route keys f key' : Nat) := by
  simp only [inflow, Nat.cast_sum]
  apply Finset.sum_congr rfl
  intro key _
  split <;> rfl

end Fibers

/-! ## The census of a stage -/

/-- The buckets of a stage, told by the events that ever arrived and those of them that survive:
`keyOf` is where an event goes, and `label` the key that it had when a unique count was last
unmerged. -/
structure Census (arrived : Set Document) (docs : List Document) (stage : Stage) (b : Buckets)
    (keyOf : Document → Option Key) (label : String → Document → Option Key) : Prop where
  survived : ∀ d ∈ docs, d ∈ arrived
  peopled : ∀ key, key ∈ domain b ↔ ∃ d ∈ arrived, keyOf d = some key
  count : ∀ key, amount b Field.count key = (eventsOf keyOf docs key).length
  unique : ∀ name ∈ stage.reduces.filterMap unique?, ∀ key,
    amount b name key = distinct (label name) (eventsOf keyOf docs key)
  fine : ∀ name ∈ stage.reduces.filterMap unique?, ∀ d ∈ docs, ∀ e ∈ docs,
    label name d = label name e → keyOf d = keyOf e

section Next

variable {verbs : List Verb} {parent child : Stage} {b c : Buckets} {route : Key → Option Key}
  {arrived : Set Document} {docs : List Document} {keyOf keyOf' : Document → Option Key}
  {label label' : String → Document → Option Key}

theorem Census.stored (census : Census arrived docs parent b keyOf label) {d : Document} (mem : d ∈ docs) {key : Key}
    (own : keyOf d = some key) : key ∈ domain b :=
  (census.peopled key).2 ⟨d, census.survived d mem, own⟩

/-- The columns of a stage that adds up what the stage before it counts. -/
theorem Census.next (census : Census arrived docs parent b keyOf label)
    (merges : Merges verbs parent child route) (inStep : InStep child route b c)
    (holds : ∀ key d, c.get? key = some d → child.Holds verbs key d)
    (routed : ∀ d ∈ arrived, (keyOf d).bind route = keyOf' d)
    (merged : ∀ name, .uniqueTally name ∈ child.reduces → label' name = label name)
    (unmerged : ∀ source name, .countUniqueValues source name ∈ child.reduces → label' name = keyOf') :
    Census arrived docs child c keyOf' label' := by
  have stored : ∀ d ∈ docs, ∀ key, keyOf d = some key → key ∈ domain b := fun _ mem _ => census.stored mem
  have routed' : ∀ d ∈ docs, (keyOf d).bind route = keyOf' d := fun d mem => routed d (census.survived d mem)
  have tallied : ∀ name, .uniqueTally name ∈ child.reduces → name ∈ parent.reduces.filterMap unique? := by
    intro name mem
    rcases merges.linear name (.inr mem) with (count | tally) | counted
    · exact absurd count (merges.counting.tally_ne_count mem)
    · exact mem_unique.2 (.inl tally)
    · exact mem_unique.2 (.inr counted)
  have count : ∀ key', amount c Field.count key' = (eventsOf keyOf' docs key').length := by
    intro key'
    rw [inStep.amount _ (.inl rfl), inflow_congr fun key _ => census.count key, inflow_natCast,
      length_fibers stored routed']
  -- A bucket of the child counts the events of those buckets of the parent that are routed to it.
  constructor
  case survived => exact census.survived
  case peopled =>
    intro key'
    rw [inStep.domain]
    constructor
    · rintro ⟨key, mem, goes⟩
      obtain ⟨d, came, own⟩ := (census.peopled key).1 mem
      exact ⟨d, came, by rw [← routed d came, own, Option.bind_some, goes]⟩
    · rintro ⟨d, came, own⟩
      rw [← routed d came, Option.bind_eq_some_iff] at own
      obtain ⟨key, own, goes⟩ := own
      exact ⟨key, (census.peopled key).2 ⟨d, came, own⟩, goes⟩
  case count => exact count
  case unique =>
    intro name mem key'
    rcases mem_unique.1 mem with tally | ⟨source, counted⟩
    · rw [merged name tally, inStep.amount _ (.inr tally),
        inflow_congr fun key _ => census.unique name (tallied name tally) key, inflow_natCast,
        distinct_fibers stored (census.fine name (tallied name tally)) routed']
    · rw [unmerged source name counted, amount_of_presence holds counted, count, distinct_eventsOf_self]
      simp
  case fine =>
    intro name mem d first e second same
    rcases mem_unique.1 mem with tally | ⟨source, counted⟩
    · rw [merged name tally] at same
      rw [← routed' d first, ← routed' e second, census.fine name (tallied name tally) d first e second same]
    · rwa [unmerged source name counted] at same

end Next

/-! ## The census of a chain -/

/-- Verbs that fold when the unique counts of `front` are merged and those of `rest` are not. -/
structure Midway (front rest reduces : List Verb) : Prop where
  unmerged : ∀ field name, .countUniqueValues field name ∈ reduces ↔ .countUniqueValues field name ∈ rest
  merged : ∀ name, .uniqueTally name ∈ reduces → name ∈ counts front

theorem uniqueTally_mem_tallied {field name other : String} {reduces : List Verb}
    (mem : .uniqueTally other ∈ Rollup.tallied field name reduces) :
    .uniqueTally other ∈ reduces ∨ other = name := by
  apply (mem_tallied mem).imp_right
  intro same
  cases same
  rfl

theorem filterMap_unique?_tallied (field name : String) (reduces : List Verb) :
    (Rollup.tallied field name reduces).filterMap unique? = reduces.filterMap unique? := by
  rw [Rollup.tallied, List.filterMap_map]
  apply List.filterMap_congr
  intro v _
  simp only [Function.comp_apply]
  split
  · next same => rw [same]; rfl
  · rfl

section Walk

variable {front rest reduces : List Verb} {v : Verb}

theorem Midway.skip (midway : Midway front (v :: rest) reduces) (uncounted : v.counted? = none) :
    Midway (front ++ [v]) rest reduces where
  unmerged field name := by
    rw [midway.unmerged, List.mem_cons]
    apply or_iff_right
    rintro rfl
    cases uncounted
  merged name mem := by
    rw [counts_append]
    exact List.mem_append_left _ (midway.merged name mem)

theorem Midway.merge {field name : String}
    (midway : Midway front (.countUniqueValues field name :: rest) reduces)
    (fresh : Verb.countUniqueValues field name ∉ rest) :
    Midway (front ++ [.countUniqueValues field name]) rest (Rollup.tallied field name reduces) where
  unmerged source other := by
    rw [countUniqueValues_mem_tallied, midway.unmerged, List.mem_cons]
    constructor
    · rintro ⟨same | later, apart⟩
      · exact absurd same apart
      · exact later
    · intro later
      refine ⟨.inr later, fun same => fresh ?_⟩
      rw [← same]
      exact later
  merged other mem := by
    rw [counts_append]
    rcases uniqueTally_mem_tallied mem with earlier | rfl
    · exact List.mem_append_left _ (midway.merged other earlier)
    · exact List.mem_append_right _ (List.mem_singleton_self _)

/-- A census by the keys from which the unique counts of `front` are cleared. -/
abbrev CensusAfter (verbs front : List Verb) (arrived : Set Document) (docs : List Document) (s : Store)
    (site : Site) : Prop :=
  Census arrived docs site.stage (s.buckets site.scope) (mergedKey? verbs (counts front))
    fun name => mergedKey? verbs (countsBefore front name)

variable {verbs : List Verb} {arrived : Set Document} {docs : List Document} {s : Store} {site child : Site}

theorem CensusAfter.skip (census : CensusAfter verbs front arrived docs s site) (uncounted : v.counted? = none) :
    CensusAfter verbs (front ++ [v]) arrived docs s site := by
  have same : counts (front ++ [v]) = counts front := by
    rw [counts_append]
    simp [counts, uncounted]
  have before : ∀ name, countsBefore (front ++ [v]) name = countsBefore front name := by
    intro name
    rw [countsBefore_append_singleton]
    split
    · rfl
    · next missing =>
      rw [same, countsBefore_of_fresh]
      intro listed
      apply missing
      rw [List.filterMap_append]
      exact List.mem_append_left _ listed
  rw [CensusAfter, same, funext before]
  exact census

/-- The stage that merges a unique count has the census by keys without its part. -/
theorem CensusAfter.merge {field name : String} {route : Key → Option Key} (plain : Plain verbs)
    (nodup : (verbs.filterMap field?).Nodup)
    (split : verbs = front ++ .countUniqueValues field name :: rest)
    (midway : Midway front (.countUniqueValues field name :: rest) site.stage.reduces)
    (stage : child.stage = tallyStage field name site.stage.reduces)
    (merges : Merges verbs site.stage child.stage route)
    (inStep : InStep child.stage route (s.buckets site.scope) (s.buckets child.scope))
    (holds : ∀ key d, (s.buckets site.scope).get? key = some d → site.stage.Holds verbs key d)
    (child_holds : ∀ key d, (s.buckets child.scope).get? key = some d → child.stage.Holds verbs key d)
    (census : CensusAfter verbs front arrived docs s site) :
    CensusAfter verbs (front ++ [.countUniqueValues field name]) arrived docs s child := by
  have counted : .countUniqueValues field name ∈ site.stage.reduces :=
    (midway.unmerged field name).2 List.mem_cons_self
  have cleared : counts (front ++ [.countUniqueValues field name]) = counts front ++ [name] := counts_append
  have fields : (front ++ [Verb.countUniqueValues field name]).filterMap field? =
      front.filterMap field? ++ [name] := List.filterMap_append
  have reduces : child.stage.reduces = Rollup.tallied field name site.stage.reduces := by rw [stage]; rfl
  apply census.next merges inStep child_holds
  case routed =>
    intro d came
    rw [cleared, ← mergedKey?_bind_tallyRoute plain split nodup]
    cases own : mergedKey? verbs (counts front) d with
    | none => rfl
    | some key =>
      obtain ⟨doc, found⟩ := mem_domain.1 ((census.peopled key).2 ⟨d, came, own⟩)
      have reads := (holds key doc found).toReadable
      apply Merges.route_eq_of_map? merges reads
      rw [stage]
      exact map?_tallyStage counted reads
  case merged =>
    intro other mem
    rw [reduces] at mem
    rw [countsBefore_append_singleton, if_pos]
    rw [fields, List.mem_append, List.mem_singleton]
    apply (uniqueTally_mem_tallied mem).imp_left
    intro earlier
    exact (counts_sublist front).subset (midway.merged other earlier)
  case unmerged =>
    intro source other mem
    rw [reduces, countUniqueValues_mem_tallied, midway.unmerged, List.mem_cons] at mem
    have later : .countUniqueValues source other ∈ rest := mem.1.resolve_left mem.2
    -- A column that comes later is not among those before.
    rw [countsBefore_of_fresh]
    rw [split, List.append_cons, List.filterMap_append, List.nodup_append] at nodup
    intro listed
    exact nodup.2.2 other listed other (List.mem_filterMap.2 ⟨_, later, rfl⟩) rfl

/-- The last stage of a chain has the census by keys from which all unique counts are cleared. -/
theorem CensusAfter.last (plain : Plain verbs) (nodup : (verbs.filterMap field?).Nodup) {sites : List Site}
    (split : verbs = front ++ rest) (midway : Midway front rest site.stage.reduces)
    (stages : sites.map Site.stage = Pipeline.tallyStages site.stage.reduces rest)
    (linked : Linked verbs s site.stage (s.buckets site.scope) sites)
    (holds : ∀ key d, (s.buckets site.scope).get? key = some d → site.stage.Holds verbs key d)
    (census : CensusAfter verbs front arrived docs s site) :
    ∃ last, (site :: sites).getLast? = some last ∧ CensusAfter verbs verbs arrived docs s last ∧
      ∀ key d, (s.buckets last.scope).get? key = some d → last.stage.Holds verbs key d := by
  -- The induction is on the verbs that are still to come; only a unique count has a stage, and clears a part.
  induction rest generalizing front site sites with
  | nil =>
    obtain rfl : sites = [] := List.map_eq_nil_iff.1 stages
    rw [List.append_nil] at split
    subst split
    exact ⟨site, rfl, census, holds⟩
  | cons v rest ih =>
    have split' : verbs = (front ++ [v]) ++ rest := by rw [split, List.append_cons]
    cases v with
    | countUniqueValues field name =>
      cases sites with
      | nil => cases stages
      | cons child sites =>
        obtain ⟨stage, later⟩ := List.cons.inj stages
        obtain ⟨⟨route, merges, inStep⟩, child_holds, linked⟩ := linked
        have reduces : child.stage.reduces = Rollup.tallied field name site.stage.reduces := by rw [stage]; rfl
        have fresh : Verb.countUniqueValues field name ∉ rest := by
          intro again
          rw [split, List.filterMap_append] at nodup
          exact (List.nodup_cons.1 (List.nodup_append.1 nodup).2.1).1 (List.mem_filterMap.2 ⟨_, again, rfl⟩)
        have merged := census.merge plain nodup split midway stage merges inStep holds child_holds
        obtain ⟨last, found, counted⟩ := ih split' (reduces ▸ midway.merge fresh) (by rw [reduces]; exact later)
          linked child_holds merged
        exact ⟨last, found, counted⟩
    | countDocuments | only _ _ | brokenDownBy _ _ | sum _ _ | mean _ _ | indexedBy _
    | transformDateFormat _ _ _ | dropIndex | uniqueTally _ =>
      exact ih split' (midway.skip rfl) stages linked holds (CensusAfter.skip census rfl)

end Walk

/-! ## From the root on -/

section Root

variable {verbs : List Verb} {arrived : Set Document} {docs : List Document} {s : Store} {root : Site}

/-- The root folds no tallies, so every column is a presence. -/
theorem census_root (unchained : ∀ v ∈ verbs, v.isChained = false) (stage : root.stage = Stage.root verbs)
    {committed pending : List Document} (survived : ∀ d ∈ committed ++ pending, d ∈ arrived)
    (peopled : ∀ key, key ∈ domain (s.buckets root.scope) ↔ ∃ d ∈ arrived, root.stage.key? d = some key)
    (tallied : Ingestor.Tallied root.stage {} (s.buckets root.scope) committed pending)
    (holds : ∀ key d, (s.buckets root.scope).get? key = some d → root.stage.Holds verbs key d) :
    Census arrived (committed ++ pending) root.stage (s.buckets root.scope) root.stage.key?
      fun _ => root.stage.key? := by
  have count : ∀ key, amount (s.buckets root.scope) Field.count key =
      (eventsOf root.stage.key? (committed ++ pending) key).length := by
    intro key
    have counted := tallied.count key
    rw [Ingestor.members, List.countP_eq_length_filter] at counted
    change amount _ _ key + (0 : Int) - 0 = _ at counted
    rw [eventsOf, ← counted]
    omega
  constructor
  case survived => exact survived
  case peopled => exact peopled
  case count => exact count
  case unique =>
    intro name mem key
    rcases mem_unique.1 mem with tally | ⟨source, counted⟩
    · rw [stage] at tally
      cases unchained _ (List.mem_of_mem_filter tally)
    · rw [amount_of_presence holds counted, count, distinct_eventsOf_self]
      simp
  case fine =>
    intro name _ d _ e _ same
    exact same

theorem midway_root (unchained : ∀ v ∈ verbs, v.isChained = false) :
    Midway [] verbs (Stage.root verbs).reduces where
  unmerged field name := by simp [Stage.root, Verb.reduces]
  merged name mem := by cases unchained _ (List.mem_of_mem_filter mem)

/-- The last stage of a pipeline counts events by the keys from which all unique counts are cleared. -/
theorem census_last (plain : Plain verbs) (nodup : (verbs.filterMap field?).Nodup) {behindSites : List Site}
    (stages : (root :: behindSites).map Site.stage = Stage.root verbs ::
      (Pipeline.indexStages (Stage.root verbs).reduces verbs ++
        Pipeline.tallyStages (Stage.root verbs).reduces verbs))
    (linked : Linked verbs s root.stage (s.buckets root.scope) behindSites)
    (holds : ∀ key d, (s.buckets root.scope).get? key = some d → root.stage.Holds verbs key d)
    (census : Census arrived docs root.stage (s.buckets root.scope) root.stage.key? fun _ => root.stage.key?) :
    ∃ last, (root :: behindSites).getLast? = some last ∧ CensusAfter verbs verbs arrived docs s last ∧
      ∀ key d, (s.buckets last.scope).get? key = some d → last.stage.Holds verbs key d := by
  obtain ⟨stage, later⟩ := List.cons.inj stages
  have midway := midway_root plain.unchained
  rw [Pipeline.indexStages] at later
  -- Where a verb makes an index there is a stage behind the root that drops the index from all keys, and the
  -- others come after it; where none does they come right after the root.
  split at later
  · next indexed =>
    have positive : 0 < verbs.countP isIndex := List.countP_pos_iff.2 (List.any_eq_true.1 indexed)
    cases behindSites with
    | nil => cases later
    | cons drop sites =>
      obtain ⟨dropped, later⟩ := List.cons.inj later
      obtain ⟨⟨route, merges, inStep⟩, drop_holds, linked⟩ := linked
      have reduces : drop.stage.reduces = (Stage.root verbs).reduces := by rw [dropped]
      have start : CensusAfter verbs [] arrived docs s drop := by
        apply census.next merges inStep drop_holds
        case routed =>
          intro d came
          rw [show counts [] = [] from rfl, ← key?_bind_dropRoute plain positive, ← stage]
          cases own : root.stage.key? d with
          | none => rfl
          | some key =>
            obtain ⟨doc, found⟩ := mem_domain.1 ((census.peopled key).2 ⟨d, came, own⟩)
            apply Merges.route_eq_of_map? merges (holds key doc found).toReadable
            rw [dropped]
            exact map?_dropStage _ key doc
        case merged =>
          intro name mem
          rw [reduces] at mem
          exact absurd (midway.merged name mem) List.not_mem_nil
        case unmerged => exact fun _ _ _ => rfl
      obtain ⟨last, found, counted⟩ := start.last plain nodup rfl (reduces ▸ midway) (by rw [reduces]; exact later)
        linked drop_holds
      exact ⟨last, found, counted⟩
  · next plainly =>
    have unindexed : verbs.countP isIndex = 0 := by
      rw [List.countP_eq_zero]
      intro v mem indexes
      exact plainly (List.any_eq_true.2 ⟨v, mem, indexes⟩)
    have start : CensusAfter verbs [] arrived docs s root := by
      have key? : root.stage.key? = mergedKey? verbs [] := by
        rw [stage]
        exact funext (key?_of_unindexed plain.unchained unindexed)
      rw [key?] at census
      exact census
    have reduces : root.stage.reduces = (Stage.root verbs).reduces := by rw [stage]
    exact start.last plain nodup rfl (reduces ▸ midway) (by rw [reduces]; exact later) linked holds

end Root

end Ingest

open Ingest Verb

/-! ## Stages of a pipeline -/

theorem Stage.keeps_of_mem_tallyStages {reduces rest : List Verb} {stage : Stage}
    (mem : stage ∈ Pipeline.tallyStages reduces rest) : stage.Keeps reduces := by
  induction rest generalizing reduces with
  | nil => cases mem
  | cons v rest ih =>
    cases v with
    | countUniqueValues field name =>
      have unique := filterMap_unique?_tallied field name reduces
      have breakdown : ∀ source other, .brokenDownBy source other ∈ reduces →
          .brokenDownBy source other ∈ tallied field name reduces := by
        intro source other listed
        exact List.mem_map.2 ⟨_, listed, if_neg (by simp)⟩
      rcases List.mem_cons.1 mem with rfl | later
      · exact ⟨unique, breakdown⟩
      · have kept := ih later
        exact ⟨kept.unique.trans unique, fun source other listed =>
          kept.breakdown source other (breakdown source other listed)⟩
    | countDocuments | only _ _ | brokenDownBy _ _ | sum _ _ | mean _ _ | indexedBy _
    | transformDateFormat _ _ _ | dropIndex | uniqueTally _ => exact ih mem

theorem Stage.keeps_of_mem_stages {verbs : List Verb} {stage : Stage} (mem : stage ∈ (Pipeline.ofVerbs verbs).stages) :
    stage.Keeps (Stage.root (Pipeline.composition verbs)).reduces := by
  rcases List.mem_cons.1 mem with rfl | later
  · exact .refl _
  rcases List.mem_append.1 later with index | tally
  · rw [Pipeline.indexStages] at index
    split at index
    · rw [List.mem_singleton.1 index]
      exact .refl (dropStage _)
    · cases index
  · exact keeps_of_mem_tallyStages tally

theorem Stage.unindexed_of_mem_tallyStages {reduces rest : List Verb} {stage : Stage}
    (mem : stage ∈ Pipeline.tallyStages reduces rest) : stage.maps.countP isIndex = 0 := by
  induction rest generalizing reduces with
  | nil => cases mem
  | cons v rest ih =>
    cases v with
    | countUniqueValues field name =>
      rcases List.mem_cons.1 mem with rfl | later
      · rfl
      · exact ih later
    | countDocuments | only _ _ | brokenDownBy _ _ | sum _ _ | mean _ _ | indexedBy _
    | transformDateFormat _ _ _ | dropIndex | uniqueTally _ => exact ih mem

/-- Index parts are dropped before the last stage. -/
theorem Stage.unindexed_of_last {verbs : List Verb} {stage : Stage}
    (last : (Pipeline.ofVerbs verbs).stages.getLast? = some stage) : stage.maps.countP isIndex = 0 := by
  rw [Pipeline.stages, Pipeline.ofVerbs, Pipeline.indexStages] at last
  split at last
  · rw [List.getLast?_cons_of_ne_nil (by simp)] at last
    rcases List.mem_append.1 (List.mem_of_getLast? last) with index | tally
    · rw [List.mem_singleton.1 index]
      rfl
    · exact unindexed_of_mem_tallyStages tally
  · next plainly =>
    rcases List.mem_cons.1 (List.mem_of_getLast? last) with rfl | tally
    · rw [List.countP_eq_zero]
      intro v mem indexes
      exact plainly (List.any_eq_true.2 ⟨v, mem, indexes⟩)
    · exact unindexed_of_mem_tallyStages tally

namespace Ingestor

/-! ## After a history -/

/-- The last stage of a session counts these events. -/
structure Surveyed (verbs : List Verb) (arrived : Set Document) (docs : List Document) (t : Session) (last : Site) :
    Prop where
  scope : t.1.finalScope = last.scope
  census : CensusAfter verbs verbs arrived docs t.2.store last
  holds : ∀ key d, (t.2.store.buckets last.scope).get? key = some d → last.stage.Holds verbs key d
  keeps : last.stage.Keeps (Stage.root verbs).reduces
  unindexed : last.stage.maps.countP isIndex = 0
  sorted : (t.2.store.buckets last.scope).Sorted

variable {verbs : List Verb}

theorem surveyed_of_tallied (apart : ColumnsApart verbs) (plain : Plain (Pipeline.composition verbs)) {t : Session}
    {root : Site} {behindSites : List Site} {arrived : Set Document} {committed pending : List Document}
    (sound : Sound (Pipeline.composition verbs) root behindSites {} t)
    (stages : (root :: behindSites).map Site.stage = (Pipeline.ofVerbs verbs).stages)
    (survived : ∀ d ∈ committed ++ pending, d ∈ arrived)
    (peopled : ∀ key, key ∈ domain (t.2.store.buckets root.scope) ↔ ∃ d ∈ arrived, root.stage.key? d = some key)
    (tallied : Tallied root.stage {} (t.2.store.buckets root.scope) committed pending) :
    ∃ last, Surveyed (Pipeline.composition verbs) arrived (committed ++ pending) t last := by
  have holds := sound.standing.grounded.holds
  have census := census_root plain.unchained sound.stage survived peopled tallied holds
  obtain ⟨last, found, census', holds'⟩ := census_last plain
    (Pipeline.counting_composition apart).apart.nodup stages sound.standing.linked holds census
  have last_stage : (Pipeline.ofVerbs verbs).stages.getLast? = some last.stage := by
    rw [← stages, List.getLast?_map, found]
    rfl
  refine ⟨last, ?_, census', holds', Stage.keeps_of_mem_stages (List.mem_of_getLast? last_stage),
    Stage.unindexed_of_last last_stage, sound.standing.sorted last.scope⟩
  rw [finalScope, sound.sites, found]
  rfl

section Start

variable (apart : ColumnsApart verbs) (plain : Plain (Pipeline.composition verbs)) {config : Config}
  (valid : config.validate = .ok ())

include apart plain valid

/-- Whenever nothing is queued, the last stage has the buckets of the events that were ever ingested
and counts those that survive. -/
theorem surveyed_of_history {t : Session}
    (ran : (openAt Store.root (Pipeline.ofVerbs verbs) config : Action Error Unit Ingestor).run () {} =
      (.ok t.1, (), t.2))
    {ops : List Op} {committed pending : List Document} (history : History t ops committed pending)
    (small : ∀ done, done <+: ops → (t.after done).Small) (drained : (t.after ops).1.queued = 0) :
    ∃ last, Surveyed (Pipeline.composition verbs) {d | .ingest d ∈ ops} (committed ++ pending) (t.after ops) last := by
  obtain ⟨t', ran', stages, plan, root, behindSites, sound, empty⟩ := opened apart valid FaultPlan.never_rootOnly
  obtain rfl : t = t' := session_unique ran ran'
  have spares : t.2.plan.Spares root.scope := plan ▸ FaultPlan.never_spares _
  have same_key : ∀ d e, Document.Same d e → root.stage.key? d = root.stage.key? e := by
    rw [sound.stage]
    exact fun d e => Stage.key?_of_same plain.unchained
  obtain ⟨sound', tallied⟩ := tallied_of_drained same_key sound (empty _) spares small history drained
  obtain ⟨q, sound'', -, origins⟩ := bucket_iff_ingested sound (empty _) spares small
  obtain rfl := sound''.eq_empty_of_drained drained
  rw [sound.sites] at stages
  refine surveyed_of_tallied apart plain sound' stages history.ingested (fun key => ?_) tallied
  exact (or_iff_left fun filled => filled rfl).symm.trans (origins key)

/-- The last stage counts the surviving events of any history. -/
theorem surveyed_after_commit :
    ∃ t : Session, (openAt Store.root (Pipeline.ofVerbs verbs) config : Action Error Unit Ingestor).run () {} =
        (.ok t.1, (), t.2) ∧
      ∀ (ops : List Op) (committed pending : List Document), History t ops committed pending →
        (∀ done, done <+: ops ++ [.commit] → (t.after done).Small) →
        ∃ last, Surveyed (Pipeline.composition verbs) {d | .ingest d ∈ ops ++ [.commit]} (committed ++ pending)
          (t.after (ops ++ [.commit])) last := by
  obtain ⟨t, ran, -, plan, root, behindSites, sound, -⟩ := opened apart valid FaultPlan.never_rootOnly
  refine ⟨t, ran, fun ops committed pending history small => ?_⟩
  exact surveyed_of_history apart plain valid ran history.commit small
    (sound.queued_after_commit (plan ▸ FaultPlan.never_spares _) small)

end Start

end Ingestor

end Rollup
