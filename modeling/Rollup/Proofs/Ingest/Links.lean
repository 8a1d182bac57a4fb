import Rollup.Proofs.Ingest.Chain
import Rollup.Proofs.Ingest.Cycle

/-!
# Chains in step

In a linked chain every stage is in step with the one before it (`Linked`).  When the first stage
has gone through a course and the stages behind have settled, the chain is linked again
(`Linked.settled`): each stage turns the course of the stage before it into one of its own.
-/

namespace Rollup.Ingest

/-- The stages behind one with these buckets are in step, each with the stage before it. -/
def Linked (verbs : List Verb) (s : Store) : Stage → Buckets → List Site → Prop
  | _, _, [] => True
  | stage, b, child :: rest =>
    (∃ route, Merges verbs stage child.stage route ∧ InStep child.stage route b (s.buckets child.scope)) ∧
      (∀ key d, (s.buckets child.scope).get? key = some d → child.stage.Holds verbs key d) ∧
      Linked verbs s child.stage (s.buckets child.scope) rest

/-- Different sites are different scopes of the store. -/
structure Placed (sites : List Site) (s : Store) : Prop where
  nodup : (sites.map Site.scope).Nodup
  open_ : ∀ site ∈ sites, site.scope < s.scopes.length

theorem Placed.tail {site : Site} {sites : List Site} {s : Store} (placed : Placed (site :: sites) s) :
    Placed sites s where
  nodup := (List.nodup_cons.1 placed.nodup).2
  open_ other mem := placed.open_ other (List.mem_cons_of_mem _ mem)

theorem Placed.head_not_mem {site : Site} {sites : List Site} {s : Store} (placed : Placed (site :: sites) s) :
    site.scope ∉ sites.map Site.scope := (List.nodup_cons.1 placed.nodup).1

theorem Placed.of_length_le {sites : List Site} {s s' : Store} (placed : Placed sites s)
    (length : s.scopes.length ≤ s'.scopes.length) : Placed sites s' :=
  ⟨placed.nodup, fun site mem => Nat.lt_of_lt_of_le (placed.open_ site mem) length⟩

theorem Placed.of_length {sites : List Site} {s s' : Store} (placed : Placed sites s)
    (length : s'.scopes.length = s.scopes.length) : Placed sites s' :=
  placed.of_length_le length.ge

section Revised

variable {site : Site} {behindSites : List Site} {s : Store} {retracted added : List Revision}
  (placed : Placed (site :: behindSites) s)

include placed

/-- When a stage has worked off its queues, its own buckets have changed and no others. -/
theorem buckets_revised :
    (storeAll site.scope added (storeAll site.scope retracted s)).buckets site.scope =
        applyAll added (applyAll retracted (s.buckets site.scope)) ∧
      ∀ other ∈ behindSites, (storeAll site.scope added (storeAll site.scope retracted s)).buckets other.scope =
        s.buckets other.scope := by
  have here := placed.open_ site List.mem_cons_self
  constructor
  · rw [buckets_storeAll_self _ (by rw [length_storeAll]; exact here), buckets_storeAll_self _ here]
  · intro other mem
    have apart : other.scope ≠ site.scope := fun same => placed.head_not_mem (same ▸ List.mem_map_of_mem mem)
    rw [buckets_storeAll_of_ne apart, buckets_storeAll_of_ne apart]

theorem Placed.revised (retracted added : List Revision) :
    Placed behindSites (storeAll site.scope added (storeAll site.scope retracted s)) :=
  placed.tail.of_length (by rw [length_storeAll, length_storeAll])

theorem sorted_revised (sorted : ∀ id, (s.buckets id).Sorted) :
    ∀ id, ((storeAll site.scope added (storeAll site.scope retracted s)).buckets id).Sorted := by
  have step : ∀ {s : Store} (rs : List Revision), site.scope < s.scopes.length → (∀ id, (s.buckets id).Sorted) →
      ∀ id, ((storeAll site.scope rs s).buckets id).Sorted := by
    intro s rs here sorted id
    by_cases same : id = site.scope
    · subst same
      rw [buckets_storeAll_self rs here]
      exact sorted_applyAll (sorted site.scope) rs
    · rw [buckets_storeAll_of_ne same]
      exact sorted id
  have here := placed.open_ site List.mem_cons_self
  exact step added (by rw [length_storeAll]; exact here) (step retracted here sorted)

end Revised

section Frame

variable {sites : List Site} {qs qs' : List Queues} {s s' : Store}

theorem Settled.sameTree (settled : Settled sites qs s qs' s') : Store.SameTree s s' := by
  induction settled with
  | nil => exact .refl _
  | cons _ _ _ _ _ ih => exact ((sameTree_storeAll _ _ _).trans (sameTree_storeAll _ _ _)).trans ih

theorem Settled.buckets_of_not_mem (settled : Settled sites qs s qs' s') {id : ScopeId}
    (other : id ∉ sites.map Site.scope) : s'.buckets id = s.buckets id := by
  induction settled with
  | nil => rfl
  | cons _ _ _ _ _ ih =>
    rw [List.map_cons, List.mem_cons, not_or] at other
    rw [ih other.2, buckets_storeAll_of_ne other.1, buckets_storeAll_of_ne other.1]

section Cycle

variable {site : Site} {behindSites : List Site} {q q' : Queues} {first second : List Group}
  {retracted added : List Revision}
  (cycled : Cycled site behindSites q qs s first second retracted added q' qs' s')

include cycled

theorem Cycled.sameTree : Store.SameTree s s' :=
  ((sameTree_storeAll _ _ _).trans (sameTree_storeAll _ _ _)).trans cycled.settled.sameTree

theorem Cycled.buckets_of_not_mem {id : ScopeId} (other : id ∉ (site :: behindSites).map Site.scope) :
    s'.buckets id = s.buckets id := by
  rw [List.map_cons, List.mem_cons, not_or] at other
  rw [cycled.settled.buckets_of_not_mem other.2, buckets_storeAll_of_ne other.1, buckets_storeAll_of_ne other.1]

end Cycle

theorem Settled.sorted (settled : Settled sites qs s qs' s') (placed : Placed sites s)
    (sorted : ∀ id, (s.buckets id).Sorted) : ∀ id, (s'.buckets id).Sorted := by
  induction settled with
  | nil => exact sorted
  | cons _ _ _ _ _ ih => exact ih (placed.revised _ _) (sorted_revised placed sorted)

section Commits

variable {plan : FaultPlan} {workers : Nat} {ok : Bool}

theorem Commits.sameTree (commits : Commits plan workers sites qs s ok qs' s') : Store.SameTree s s' := by
  induction commits with
  | nil => exact .refl _
  | unflushed => exact (sameTree_storeAll _ _ _).trans (sameTree_storeAll _ _ _)
  | cons _ _ ih => exact ((sameTree_storeAll _ _ _).trans (sameTree_storeAll _ _ _)).trans ih

theorem Commits.buckets_of_not_mem (commits : Commits plan workers sites qs s ok qs' s') {id : ScopeId}
    (other : id ∉ sites.map Site.scope) : s'.buckets id = s.buckets id := by
  induction commits with
  | nil => rfl
  | unflushed =>
    rw [List.map_cons, List.mem_cons, not_or] at other
    rw [buckets_storeAll_of_ne other.1, buckets_storeAll_of_ne other.1]
  | cons _ _ ih =>
    rw [List.map_cons, List.mem_cons, not_or] at other
    rw [ih other.2, buckets_storeAll_of_ne other.1, buckets_storeAll_of_ne other.1]

theorem Commits.length_queues (commits : Commits plan workers sites qs s ok qs' s')
    (length : qs.length = sites.length) : qs'.length = sites.length := by
  induction commits with
  | nil => rfl
  | unflushed =>
    rw [List.length_cons, length_handOn, length_handOn]
    exact length
  | cons _ _ ih => exact congrArg (· + 1) (ih (by rw [length_handOn, length_handOn]; exact Nat.succ.inj length))

theorem Commits.sorted (commits : Commits plan workers sites qs s ok qs' s') (placed : Placed sites s)
    (sorted : ∀ id, (s.buckets id).Sorted) : ∀ id, (s'.buckets id).Sorted := by
  induction commits with
  | nil => exact sorted
  | unflushed => exact sorted_revised placed sorted
  | cons _ _ ih => exact ih (placed.revised _ _) (sorted_revised placed sorted)

end Commits

end Frame

theorem Linked.congr {verbs : List Verb} {s s' : Store} {sites : List Site}
    (same : ∀ site ∈ sites, s'.buckets site.scope = s.buckets site.scope) {stage : Stage} {b : Buckets}
    (linked : Linked verbs s stage b sites) : Linked verbs s' stage b sites := by
  induction sites generalizing stage b with
  | nil => trivial
  | cons child rest ih =>
    obtain ⟨step, holds, later⟩ := linked
    rw [Linked, same child List.mem_cons_self]
    exact ⟨step, holds, ih (fun site mem => same site (List.mem_cons_of_mem _ mem)) later⟩

/-- The queues of stages that have nothing to do. -/
def idle (sites : List Site) : List Queues := sites.map fun _ => {}

/-- Queues with what a course of the stage before hands on. -/
def received (q : Queues) (next : Stage) (retracted added : List Revision) : Queues :=
  ⟨q.additions ++ additions next retracted added, q.retractions ++ retractions next retracted added⟩

theorem handOn_handOn (next : Site) (rest : List Site) (q : Queues) (qs : List Queues)
    (retracted added : List Revision) :
    handOn (next :: rest) added (handOn (next :: rest) retracted (q :: qs)) =
      received q next.stage retracted added :: qs := by
  simp only [handOn, received, additions, retractions, List.append_assoc]

/-- When a stage has gone through a course and the stages behind have settled what it handed on, they are
in step with its end. -/
theorem Linked.settled {verbs : List Verb} {bound : Nat} (small : 2 * bound < 2 ^ 53) {site : Site}
    {behindSites : List Site} {qs' : List Queues} {s s' : Store} {middle after : Buckets}
    {retracted added : List Revision} (linked : Linked verbs s site.stage (s.buckets site.scope) behindSites)
    (placed : Placed (site :: behindSites) s)
    (course : Course verbs site.stage bound (s.buckets site.scope) retracted middle added after)
    (settled : Settled behindSites (handOn behindSites added (handOn behindSites retracted (idle behindSites)))
      (storeAll site.scope added (storeAll site.scope retracted s)) qs' s') :
    Linked verbs s' site.stage (s'.buckets site.scope) behindSites ∧ qs' = idle behindSites := by
  induction behindSites generalizing site s qs' middle after retracted added with
  | nil =>
    cases settled
    exact ⟨trivial, rfl⟩
  | cons child rest ih =>
    obtain ⟨own, others⟩ := @buckets_revised site (child :: rest) s retracted added placed
    have end_ : s'.buckets site.scope = after := by
      rw [settled.buckets_of_not_mem placed.head_not_mem, own, course.add.result, course.retract.result]
    have placed' := placed.revised retracted added
    rw [idle, List.map_cons, handOn_handOn] at settled
    cases settled with
    | cons whole_first whole_second retract add settled =>
      obtain ⟨⟨route, merges, inStep⟩, holds, later⟩ := linked
      have later := later.congr fun other mem => others other (List.mem_cons_of_mem _ mem)
      rw [← others child List.mem_cons_self] at inStep holds later
      have backlog : Backlog verbs site.stage child.stage route bound (s.buckets site.scope) retracted middle added
        after _ := ⟨course, merges, inStep, holds, small⟩
      -- Working off its queues is a course of the child, for the stages behind it to follow.
      obtain ⟨course', inStep'⟩ := backlog.follow whole_first whole_second
      have holds' := backlog.holds_after whole_first whole_second
      subst retract add
      obtain ⟨linked', rfl⟩ := ih later placed' course' settled
      have child_end := (settled.buckets_of_not_mem placed'.head_not_mem).trans
        (buckets_revised placed').1
      rw [Linked, end_, child_end]
      rw [child_end] at linked'
      exact ⟨⟨⟨route, merges, inStep'⟩, holds', linked'⟩, rfl⟩

end Rollup.Ingest
