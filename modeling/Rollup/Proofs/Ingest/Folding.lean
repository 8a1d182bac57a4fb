import Rollup.Proofs.Ingest.Opening

/-!
# Every stage folds the stage before it

`Folds` says in terms of a store what it means that a chained stage is in step: its buckets are those
that the entries of the stage before map to, with counts and unique counts added up.  It holds
between any two calls of a run, also if accesses to the root fail and commits report it.
-/

namespace Rollup.Ingest

open Document

theorem hasInt_of_whole {d : Document} {field : String} (int : ∃ m, d.get? field = some (.int m)) {n : Int}
    (same : whole d field = n) : HasInt d field n := by
  obtain ⟨m, found⟩ := int
  exact ⟨m, found, by rw [← same, whole_of_int found]⟩

/-- The bucket of a stage that an entry of the stage before goes to. -/
def target? (child : Site) (e : Key × Document) : Option Key :=
  (child.stage.map? (Stage.tagged e.1 e.2)).map Prod.fst

/-- The documents of the stage before that go to a bucket. -/
def inputs (s : Store) (parent child : Site) (key : Key) : List Document :=
  ((s.entries parent.scope).filter fun e => target? child e = some key).map Prod.snd

/-- A chained stage has the buckets that the stage before it makes, and in them the sums of counts
and of the unique counts that were merged so far.  A unique count that is still to be merged tells
whether anything counts toward the bucket. -/
structure Folds (s : Store) (parent child : Site) : Prop where
  keys : ∀ key, (∃ d, s.get? child.scope key = some d) ↔
    ∃ e ∈ s.entries parent.scope, target? child e = some key
  count : ∀ key d, s.get? child.scope key = some d →
    HasInt d Field.count (wholeSum (inputs s parent child key) Field.count)
  merged : ∀ name, .uniqueTally name ∈ child.stage.reduces → ∀ key d, s.get? child.scope key = some d →
    HasInt d name (wholeSum (inputs s parent child key) name)
  unmerged : ∀ field name, .countUniqueValues field name ∈ child.stage.reduces →
    ∀ key d, s.get? child.scope key = some d → HasInt d name (if 0 < whole d Field.count then 1 else 0)

theorem wholeSum_inputs_eq {child : Site} {b : Buckets} {route : Key → Option Key} {field : String}
    {entries : List (Key × Document)} (stored : ∀ e ∈ entries, b.get? e.1 = some e.2)
    (targets : ∀ e ∈ entries, target? child e = route e.1) (key : Key) :
    wholeSum ((entries.filter fun e => target? child e = some key).map Prod.snd) field =
      ((entries.map Prod.fst).map fun k => if route k = some key then amount b field k else 0).sum := by
  induction entries with
  | nil => rfl
  | cons e rest ih =>
    have later := ih (fun e mem => stored e (List.mem_cons_of_mem _ mem))
      (fun e mem => targets e (List.mem_cons_of_mem _ mem))
    have own := targets e List.mem_cons_self
    rw [List.map_cons, List.map_cons, List.sum_cons, ← later, List.filter_cons,
      amount_of_get? (stored e List.mem_cons_self)]
    by_cases here : route e.1 = some key
    · rw [if_pos (by rw [own, here]; exact decide_eq_true rfl), if_pos here, List.map_cons, wholeSum,
        List.map_cons, List.sum_cons]
      rfl
    · rw [if_neg (by rw [own]; simpa using here), if_neg here, Int.zero_add]

section Inputs

variable {verbs : List Verb} {s : Store} {parent child : Site} {route : Key → Option Key}
  (merges : Merges verbs parent.stage child.stage route) (sorted : (s.buckets parent.scope).Sorted)
  (holds : ∀ key d, (s.buckets parent.scope).get? key = some d → parent.stage.Holds verbs key d)

include merges sorted holds

/-- The entries of the stage before are its buckets, and go where their keys tell. -/
theorem get?_of_mem_entries {e : Key × Document} (mem : e ∈ s.entries parent.scope) :
    (s.buckets parent.scope).get? e.1 = some e.2 ∧ target? child e = route e.1 := by
  have stored : (s.buckets parent.scope).get? e.1 = some e.2 := sorted.mem_toList_iff.1 mem
  refine ⟨stored, ?_⟩
  rw [target?, merges.map? e.1 e.2 (holds e.1 e.2 stored).toReadable, Option.map_map]
  cases route e.1 <;> rfl

/-- What flows into a key over all buckets is the sum over its inputs. -/
theorem inflow_eq_wholeSum (field : String) (key : Key) :
    inflow route (domain (s.buckets parent.scope)) (amount (s.buckets parent.scope) field) key =
      wholeSum (inputs s parent child key) field := by
  rw [inflow, domain, List.sum_toFinset _ sorted.nodup_keys, inputs,
    wholeSum_inputs_eq (fun e mem => (get?_of_mem_entries merges sorted holds mem).1)
      fun e mem => (get?_of_mem_entries merges sorted holds mem).2]
  rfl

theorem folds_of_inStep (inStep : InStep child.stage route (s.buckets parent.scope) (s.buckets child.scope))
    (holds' : ∀ key d, (s.buckets child.scope).get? key = some d → child.stage.Holds verbs key d) :
    Folds s parent child := by
  have sums : ∀ field, Linear child.stage.reduces field → ∀ key d, s.get? child.scope key = some d →
      whole d field = wholeSum (inputs s parent child key) field := by
    intro field linear key d found
    rw [Store.get?_eq] at found
    rw [← amount_of_get? found, inStep.amount field linear key, inflow_eq_wholeSum merges sorted holds]
  refine ⟨fun key => ?_, fun key d found => ?_, fun name mem key d found => ?_,
    fun field name mem key d found => ?_⟩
  · have domains := inStep.domain key
    rw [mem_domain] at domains
    refine domains.trans ⟨?_, ?_⟩
    · rintro ⟨key', mem, routed⟩
      obtain ⟨d, found⟩ := mem_domain.1 mem
      have listed : (key', d) ∈ s.entries parent.scope := sorted.mem_toList_iff.2 found
      exact ⟨_, listed, (get?_of_mem_entries merges sorted holds listed).2.trans routed⟩
    · rintro ⟨e, mem, routed⟩
      obtain ⟨stored, target⟩ := get?_of_mem_entries merges sorted holds mem
      exact ⟨e.1, mem_domain.2 ⟨e.2, stored⟩, target.symm.trans routed⟩
  · exact hasInt_of_whole (holds' key d found).count (sums _ (.inl rfl) key d found)
  · exact hasInt_of_whole ((holds' key d found).tallied name mem) (sums name (.inr mem) key d found)
  · refine ⟨_, (holds' key d found).presence field name mem, ?_⟩
    split <;> rfl

end Inputs

/-- In a linked chain every stage folds the stage before it. -/
theorem isChain_folds {verbs : List Verb} {s : Store} (sorted : ∀ id, (s.buckets id).Sorted) {site : Site}
    {sites : List Site}
    (holds : ∀ key d, (s.buckets site.scope).get? key = some d → site.stage.Holds verbs key d)
    (linked : Linked verbs s site.stage (s.buckets site.scope) sites) :
    (site :: sites).IsChain (Folds s) := by
  induction sites generalizing site with
  | nil => exact List.isChain_singleton _
  | cons child rest ih =>
    obtain ⟨⟨route, merges, inStep⟩, holds', later⟩ := linked
    exact List.isChain_cons_cons.2
      ⟨folds_of_inStep merges (sorted site.scope) holds inStep holds', ih holds' later⟩

end Rollup.Ingest

namespace Rollup.Ingestor

open Ingest

/-- A chained stage is always the fold of the stage before it.  Reads and writes of the root's
entries may fail, whether commits return normally or not. -/
theorem chain_folds_parents {verbs : List Verb} (apart : ColumnsApart verbs) {config : Config}
    (valid : config.validate = .ok ()) {plan : FaultPlan} (faults : plan.RootOnly) :
    ∃ t : Session, (openAt Store.root (Pipeline.ofVerbs verbs) config : Action Error Unit Ingestor).run ()
        { plan := plan } = (.ok t.1, (), t.2) ∧
      ∀ ops : List Op, (∀ done, done <+: ops → (t.after done).Small) →
        (t.after ops).1.sites.map Site.stage = (Pipeline.ofVerbs verbs).stages ∧
        (t.after ops).1.sites.IsChain (Folds (t.after ops).2.store) := by
  obtain ⟨t, ran, stages, -, root, behindSites, sound, -⟩ := opened apart valid faults
  refine ⟨t, ran, fun ops small => ?_⟩
  obtain ⟨q, sound', -⟩ := sound.after small
  rw [sound'.sites, ← sound.sites, stages]
  refine ⟨rfl, ?_⟩
  rw [sound.sites]
  exact isChain_folds sound'.standing.sorted sound'.standing.grounded.holds sound'.standing.linked

/-- The plan of a store that fails the first read of the root. -/
def failFirstRead : FaultPlan := fun n call =>
  if n = 1 ∧ call.scope = Store.root ∧ call.kind = .get then some (.error .markersExhausted) else none

theorem failFirstRead_rootOnly : failFirstRead.RootOnly := by
  intro n call f failing
  rw [failFirstRead] at failing
  split at failing
  · next here => exact ⟨here.2.1, .inl here.2.2, _, (Option.some.inj failing).symm⟩
  · cases failing

theorem chain_folds_parents_failing_first_read :
    ∃ t : Session, (openAt Store.root (Pipeline.ofVerbs [.brokenDownBy "a" "A", .countUniqueValues "u" "U"])
          { commitThreshold := 0 } : Action Error Unit Ingestor).run () { plan := failFirstRead } =
        (.ok t.1, (), t.2) ∧
      let d : Document := ⟨[("a", .text "x"), ("u", .text "y")]⟩
      let ops : List Op := [.ingest d, .commit, .ingest d, .uningest d, .commit]
      (t.after ops).1.sites.IsChain (Folds (t.after ops).2.store) := by
  have apart : ColumnsApart [.brokenDownBy "a" "A", .countUniqueValues "u" "U"] := ⟨by decide, by decide⟩
  obtain ⟨t, ran, folds⟩ := @chain_folds_parents _ apart { commitThreshold := 0 } rfl _ failFirstRead_rootOnly
  exact ⟨t, ran, (folds _ (small_of_openAt apart rfl failFirstRead_rootOnly ran (by simp))).2⟩

end Rollup.Ingestor
