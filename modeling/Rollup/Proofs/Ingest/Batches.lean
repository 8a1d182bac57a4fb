import Rollup.Proofs.Ingest.Recomputation

/-!
# Batches

Cycles take a store on, each with a batch of its own that every stage works off (`Batched`).  Where
nothing is added in a batch that retracts, nor in one after it (`AddsFirst`), what the root counts
depends only on the entries of all batches together (`Batched.tallies`): a key that is retracted from
has been opened by then, or never is.  The stages behind are in step with the root, so two such stores
have the same buckets, but for sums and means (`Tallies.forall₂_entries`).
-/

namespace Rollup

namespace Ingest

/-- What cycles make of a store, one after the other, each with its batch. -/
inductive Batched (root : Site) (behindSites : List Site) (s : Store) : List Queues → Store → Prop
  | start : Batched root behindSites s [] s
  | next {batches : List Queues} {batch : Queues} {s₁ s₂ : Store} (before : Batched root behindSites s batches s₁)
      (settled : Settled (root :: behindSites) (batch :: idle behindSites) s₁ (idle (root :: behindSites)) s₂) :
      Batched root behindSites s (batches ++ [batch]) s₂

theorem Settled.eq_idle {sites : List Site} {qs qs' : List Queues} {s s' : Store}
    (settled : Settled sites qs s qs' s') : qs' = idle sites := by
  induction settled with
  | nil => rfl
  | cons _ _ _ _ _ ih => exact congrArg ({} :: ·) ih

/-- Stages that have nothing to do change nothing. -/
theorem Settled.eq_of_idle {sites : List Site} {qs' : List Queues} {s s' : Store}
    (settled : Settled sites (idle sites) s qs' s') : s' = s := by
  generalize queues : idle sites = qs at settled
  induction settled with
  | nil => rfl
  | @cons site behindSites q qs qs' s s' first second whole whole' retracted added retract add settled ih =>
    obtain ⟨rfl, rfl⟩ := List.cons.inj queues
    obtain rfl : first = [] := whole.eq_nil
    obtain rfl : second = [] := whole'.eq_nil
    obtain rfl : retracted = [] := retract
    obtain rfl : added = [] := add
    exact ih (by rw [handOn_nil, handOn_nil]; rfl)

namespace Batched

variable {root : Site} {behindSites : List Site} {s s' : Store} {batches : List Queues}

theorem sameTree (batched : Batched root behindSites s batches s') : Store.SameTree s s' := by
  induction batched with
  | start => exact .refl s
  | next _ settled ih => exact ih.trans settled.sameTree

theorem sorted (batched : Batched root behindSites s batches s') (placed : Placed (root :: behindSites) s)
    (sorted : ∀ id, (s.buckets id).Sorted) : ∀ id, (s'.buckets id).Sorted := by
  induction batched with
  | start => exact sorted
  | next before settled ih => exact settled.sorted (placed.of_length before.sameTree.length_scopes) ih

end Batched

/-- Nothing is added in a batch that retracts, nor in one after it. -/
inductive AddsFirst : List Queues → Prop
  | adds {batches : List Queues} (unretracted : ∀ batch ∈ batches, batch.retractions = []) : AddsFirst batches
  | retracts {batches : List Queues} {batch : Queues} (before : AddsFirst batches) (none : batch.additions = []) :
      AddsFirst (batches ++ [batch])

theorem AddsFirst.split {batches : List Queues} {batch : Queues} (first : AddsFirst (batches ++ [batch])) :
    AddsFirst batches ∧ (batch.additions = [] ∨ ∀ other ∈ batches ++ [batch], other.retractions = []) := by
  generalize whole : batches ++ [batch] = all at first
  cases first with
  | adds unretracted =>
    subst whole
    exact ⟨.adds fun other mem => unretracted other (List.mem_append_left _ mem), .inr unretracted⟩
  | retracts before none =>
    obtain ⟨rfl, same⟩ := List.append_inj' whole rfl
    obtain rfl := List.singleton_inj.1 same
    exact ⟨before, .inl none⟩

/-! ## Pools -/

/-- The entries of batches in one. -/
def pool (batches : List Queues) : Queues := ⟨batches.flatMap Queues.additions, batches.flatMap Queues.retractions⟩

theorem entries_pool (batches : List Queues) (phase : Phase) :
    (pool batches).entries phase = batches.flatMap (·.entries phase) := by
  cases phase <;> rfl

theorem pool_append (batches : List Queues) (batch : Queues) : pool (batches ++ [batch]) =
    ⟨(pool batches).additions ++ batch.additions, (pool batches).retractions ++ batch.retractions⟩ := by
  simp [pool]

theorem taken_of_unretracted {q : Queues} (none : q.retractions = []) (b : Buckets) (key : Key) :
    taken b q key = 0 := by
  rw [taken, none]
  exact ite_self _

/-- What a key loses to two batches, it loses to both together. -/
theorem taken_append (b : Buckets) (q q' : Queues) (additions : List (Key × Document)) (key : Key) :
    taken b ⟨additions, q.retractions ++ q'.retractions⟩ key = taken b q key + taken b q' key := by
  simp only [taken, docsOf_append, List.length_append]
  split <;> rfl

theorem taken_congr {b b' : Buckets} {key : Key} (same : key ∈ domain b ↔ key ∈ domain b') (q : Queues) :
    taken b q key = taken b' q key := by
  simp only [taken, same]

end Ingest

namespace Ingestor

open Ingest

variable {verbs : List Verb} {root : Site} {behindSites : List Site} {s s' : Store} {all : Queues}

/-! ## What batches make of a chain -/

theorem Standing.with_queues {q q' : Queues} (standing : Standing verbs root behindSites q s)
    (queued : ∀ phase, ∀ e ∈ q'.entries phase, Queued verbs root.stage e) : Standing verbs root behindSites q' s where
  grounded := ⟨standing.grounded.counting, standing.grounded.holds, standing.grounded.untallied, queued⟩
  linked := standing.linked
  placed := standing.placed
  sorted := standing.sorted

/-- A chain stands, and its root has the keys of the additions and counts what was added, less what was
retracted from these keys. -/
structure Tallies (verbs : List Verb) (root : Site) (behindSites : List Site) (all : Queues) (s : Store) : Prop where
  standing : Standing verbs root behindSites {} s
  load_le : Ingest.load (s.buckets root.scope) {} ≤ 2 * all.size
  stored : ∀ key, key ∈ domain (s.buckets root.scope) ↔ docsOf all.additions key ≠ []
  count : ∀ key, amount (s.buckets root.scope) Field.count key =
    (docsOf all.additions key).length - (taken (s.buckets root.scope) all key : Int)

/-- A chain whose root is empty. -/
theorem Tallies.start (standing : Standing verbs root behindSites {} s) (empty : s.buckets root.scope = .empty) :
    Tallies verbs root behindSites {} s where
  standing := standing
  load_le := by
    rw [empty]
    exact Nat.le_refl _
  stored key := by
    rw [empty]
    simp [domain, SortedMap.empty, SortedMap.toList, docsOf]
  count key := by
    rw [empty, taken_empty]
    rfl

/-- A batch takes the tallies on, if it adds nothing or if nothing was retracted. -/
theorem Tallies.next {batch : Queues} (tallies : Tallies verbs root behindSites all s)
    (queued : ∀ phase, ∀ e ∈ batch.entries phase, Queued verbs root.stage e) (few : all.size + batch.size < 2 ^ 51)
    (order : batch.additions = [] ∨ all.retractions = [] ∧ batch.retractions = [])
    (settled : Settled (root :: behindSites) (batch :: idle behindSites) s (idle (root :: behindSites)) s') :
    Tallies verbs root behindSites ⟨all.additions ++ batch.additions, all.retractions ++ batch.retractions⟩ s' := by
  have load_le := tallies.load_le
  have light : Ingest.load (s.buckets root.scope) batch =
      Ingest.load (s.buckets root.scope) {} + (2 * batch.additions.length + batch.retractions.length) := rfl
  have sizes : batch.size = batch.additions.length + batch.retractions.length := rfl
  obtain ⟨first, second, retracted, added, qs, whole, whole', retract, add, same, settled⟩ := settled.inv
  obtain rfl : idle behindSites = qs := (List.cons.inj same).2
  have cycled :
      Cycled root behindSites batch (idle behindSites) s first second retracted added {} (idle behindSites) s' :=
    ⟨whole.subperm, whole'.subperm, retract, add, settled, rfl, .inl rfl⟩
  have standing := tallies.standing.with_queues queued
  obtain ⟨standing', -, lighter⟩ := standing.cycled (by omega) cycled
  have buckets := standing.buckets_of_cycled cycled
  have grows (key : Key) : key ∈ domain (s'.buckets root.scope) ↔
      key ∈ domain (s.buckets root.scope) ∨ docsOf batch.additions key ≠ [] := by
    rw [buckets]
    exact mem_domain_cycle whole.subperm whole' key
  refine ⟨standing', ?load, fun key => ?stored, fun key => ?count⟩
  case load =>
    refine lighter.trans ?_
    simp only [Queues.size, List.length_append] at load_le ⊢
    omega
  case stored =>
    rw [grows, tallies.stored, docsOf_append, ne_eq, ne_eq, ne_eq, List.append_eq_nil_iff, not_and_or]
  case count =>
    have counted := standing.grounded.amount_cycle whole whole' (by omega) key
    rw [← buckets, tallies.count] at counted
    rw [counted, taken_append, docsOf_append, List.length_append]
    rcases order with none | ⟨unretracted, none⟩
    · -- Nothing is added, so the keys are the same ones.
      have same : key ∈ domain (s'.buckets root.scope) ↔ key ∈ domain (s.buckets root.scope) := by
        rw [grows, none]
        exact or_iff_left fun filled => filled rfl
      rw [taken_congr same, taken_congr same]
      omega
    · simp only [taken_of_unretracted unretracted, taken_of_unretracted none]
      omega

/-- Batches that add first make the tallies of all their entries. -/
theorem tallies_of_batched {batches : List Queues} (batched : Batched root behindSites s batches s')
    (first : AddsFirst batches) (standing : Standing verbs root behindSites {} s)
    (empty : s.buckets root.scope = .empty)
    (queued : ∀ phase, ∀ e ∈ (pool batches).entries phase, Queued verbs root.stage e)
    (few : (pool batches).size < 2 ^ 51) : Tallies verbs root behindSites (pool batches) s' := by
  induction batched with
  | start => exact .start standing empty
  | @next batches batch s₁ s₂ before settled ih =>
    obtain ⟨first, order⟩ := first.split
    rw [pool_append] at few queued ⊢
    have sizes : Queues.size
        ⟨(pool batches).additions ++ batch.additions, (pool batches).retractions ++ batch.retractions⟩ =
        (pool batches).size + batch.size := by
      simp only [Queues.size, List.length_append]
      omega
    rw [sizes] at few
    have earlier := ih first (by
      intro phase e mem
      cases phase with
      | retract => exact queued .retract e (List.mem_append_left _ mem)
      | add => exact queued .add e (List.mem_append_left _ mem)) (by omega)
    refine earlier.next ?_ few (order.imp_right fun unretracted => ?_) settled
    · intro phase e mem
      cases phase with
      | retract => exact queued .retract e (List.mem_append_right _ mem)
      | add => exact queued .add e (List.mem_append_right _ mem)
    · refine ⟨List.flatMap_eq_nil_iff.2 fun other mem => ?_, ?_⟩
      · exact unretracted other (List.mem_append_left _ mem)
      · exact unretracted batch (List.mem_append_right _ List.mem_cons_self)

/-! ## Equal tallies -/

theorem Tallies.recomputes (plain : Plain verbs) (tallies : Tallies verbs root behindSites all s)
    (tallies' : Tallies verbs root behindSites all s') :
    ∀ site ∈ root :: behindSites, Recomputes s s' site site := by
  have same (key : Key) : key ∈ domain (s.buckets root.scope) ↔ key ∈ domain (s'.buckets root.scope) :=
    (tallies.stored key).trans (tallies'.stored key).symm
  have covers : Covers root.stage (s.buckets root.scope) (s'.buckets root.scope) := by
    apply covers_of_count tallies.standing.grounded tallies'.standing.grounded
    · exact fun key mem => (same key).2 mem
    · intro key
      rw [tallies.count, tallies'.count, taken_congr (same key)]
  exact List.forall₂_same.1 (forall₂_recomputes plain rfl covers tallies.standing.grounded.holds
    tallies'.standing.grounded.holds tallies.standing.linked tallies'.standing.linked)

/-- Where the same was added and retracted, every stage has the same buckets, but for sums and means. -/
theorem Tallies.forall₂_entries (plain : Plain verbs) (tallies : Tallies verbs root behindSites all s)
    (tallies' : Tallies verbs root behindSites all s') {site : Site} (mem : site ∈ root :: behindSites) :
    List.Forall₂ (fun e e' => e.1 = e'.1 ∧ Agrees site.stage e.2 e'.2)
      (s.entries site.scope) (s'.entries site.scope) := by
  have one := tallies.recomputes plain tallies' site mem
  have other := tallies'.recomputes plain tallies site mem
  have sorted : (s.buckets site.scope).Sorted := tallies.standing.sorted site.scope
  have sorted' : (s'.buckets site.scope).Sorted := tallies'.standing.sorted site.scope
  apply SortedMap.forall₂_of_sorted sorted sorted'
  · intro e listed
    have found : s.get? site.scope e.1 = some e.2 := sorted.mem_toList_iff.1 listed
    obtain ⟨d', found', -⟩ := other.present e.1 e.2 found
    obtain ⟨d, same, agrees⟩ := one.present e.1 d' found'
    obtain rfl := Option.some.inj (found.symm.trans same)
    exact ⟨(e.1, d'), sorted'.mem_toList_iff.2 found', rfl, agrees⟩
  · intro e' listed
    obtain ⟨d, found, -⟩ := one.present e'.1 e'.2 (sorted'.mem_toList_iff.1 listed)
    exact ⟨(e'.1, d), sorted.mem_toList_iff.2 found, rfl⟩

end Ingestor

end Rollup
