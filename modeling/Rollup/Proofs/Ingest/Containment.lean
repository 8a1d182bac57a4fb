import Rollup.Proofs.Ingest.Opening

/-!
# Rejected writes are contained

A store that rejects writes under some keys of the root keeps their buckets as they are and touches
nothing else: every other bucket becomes what it would have become (`Contained`).  If one of the keys
is retracted from, the commit ends after its first phase, and what waits to be added keeps waiting; if
one of them is added to, everything is drained (`rejections_contained`).
-/

namespace Rollup

/-- The store rejects writes under some keys of a scope, and fails nothing else. -/
structure FaultPlan.Rejects (plan : FaultPlan) (scope : ScopeId) (keys : Set Key) : Prop where
  rejected : ∀ n depth, ∀ key ∈ keys, ∃ e, plan n ⟨scope, depth, .set, some key⟩ = some (.error e)
  only : ∀ n call f, plan n call = some f →
    call.scope = scope ∧ call.kind = .set ∧ ∃ key ∈ keys, call.key? = some key

namespace FaultPlan.Rejects

variable {plan : FaultPlan} {scope : ScopeId} {keys : Set Key} (rejects : plan.Rejects scope keys)

include rejects

theorem civil : plan.Civil := by
  intro n call crashing
  obtain ⟨here, set, key, mem, own⟩ := rejects.only n call .crash crashing
  obtain ⟨e, failing⟩ := rejects.rejected n call.depth key mem
  rw [show (⟨scope, call.depth, .set, some key⟩ : Call) = call by rw [← here, ← set, ← own], crashing] at failing
  cases failing

theorem not_passesAt {key : Key} (mem : key ∈ keys) : ¬ plan.PassesAt scope .set (some key) := by
  rintro ⟨n, depth, passing⟩
  obtain ⟨e, failing⟩ := rejects.rejected n depth key mem
  rw [passing] at failing
  cases failing

theorem of_failsAt {other : ScopeId} {kind : CallKind} {key? : Option Key} {f : Failure Error}
    (fails : plan.FailsAt other kind key? f) : other = scope ∧ kind = .set ∧ ∃ key ∈ keys, key? = some key := by
  obtain ⟨n, depth, failing⟩ := fails
  exact rejects.only n _ f failing

theorem spares {other : ScopeId} (apart : other ≠ scope) : plan.Spares other := by
  rintro f ⟨n, call, failing, rfl⟩
  exact apart (rejects.only n call f failing).1

theorem flushes (other : ScopeId) (f : Failure Error) : ¬ plan.FailsAt other .commit none f := by
  intro fails
  obtain ⟨-, wrong, -⟩ := rejects.of_failsAt fails
  cases wrong

end FaultPlan.Rejects

namespace Ingest

/-- Buckets under some keys are as they were before, and all others as they are in `whole`. -/
structure Contained (keys : Set Key) (before whole after : Buckets) : Prop where
  inside : ∀ key ∈ keys, after.get? key = before.get? key
  outside : ∀ key, key ∉ keys → after.get? key = whole.get? key

theorem mem_order {workers : Nat} {entries : List (Key × Document)} {group : Group} :
    group ∈ order workers (groupByKey entries) ↔ group.2 = docsOf entries group.1 ∧ group.2 ≠ [] :=
  (order_perm workers _).mem_iff.trans mem_groupByKey

theorem exists_group_iff {workers : Nat} {entries : List (Key × Document)} {key : Key} :
    (∃ group ∈ order workers (groupByKey entries), group.1 = key) ↔ key ∈ entries.map Prod.fst := by
  constructor
  · rintro ⟨group, mem, rfl⟩
    obtain ⟨same, filled⟩ := mem_order.1 mem
    obtain ⟨d, first⟩ := List.exists_mem_of_ne_nil _ filled
    exact List.mem_map.2 ⟨_, mem_docsOf.1 (same ▸ first), rfl⟩
  · intro mem
    obtain ⟨⟨key, d⟩, listed, rfl⟩ := List.mem_map.1 mem
    exact ⟨(key, docsOf entries key), mem_order.2 ⟨rfl, List.ne_nil_of_mem (mem_docsOf.2 listed)⟩, rfl⟩

theorem isSome_revise?_retract (stage : Stage) (group : Group) (old : Option Document) :
    (revise? stage .retract group old).isSome = old.isSome := by
  cases old <;> rfl

theorem isSome_revise?_add (stage : Stage) {group : Group} (filled : group.2 ≠ []) (old : Option Document) :
    (revise? stage .add group old).isSome := by
  obtain ⟨r, revised⟩ := revise?_add_isSome stage group.1 filled old
  exact Option.isSome_iff_exists.2 ⟨r, revised⟩

/-! ## One phase -/

section Phase

variable {plan : FaultPlan} {site : Site} {phase : Phase} {b : Buckets} {groups done : List Group} {key : Key}
  {keys : Set Key}

/-- A bucket that cannot be written stays as it is. -/
theorem Done.get?_of_not_passesAt (done_ : Done plan site phase b groups done)
    (nodup : (groups.map Prod.fst).Nodup) (blocked : ¬ plan.PassesAt site.scope .set (some key)) :
    (afterPhase site.stage phase b done).get? key = b.get? key := by
  by_cases listed : key ∈ done.map Prod.fst
  · obtain ⟨⟨key, docs⟩, mem, rfl⟩ := List.mem_map.1 listed
    rw [get?_afterPhase_of_mem (done_.nodup nodup) mem]
    -- A group is done without a write only if there is nothing to revise.
    cases revised : revise? site.stage phase (key, docs) (b.get? key) with
    | none => rfl
    | some r => exact absurd (done_.written _ mem (by rw [revised]; rfl)) blocked
  · exact get?_afterPhase_of_not_mem listed

/-- Where only writes are rejected, a group is refused when its bucket would have to be written. -/
theorem refused_of_rejects (rejects : plan.Rejects site.scope keys) {group : Group} {f : Failure Error}
    (refused : Refused plan site phase b group f) :
    group.1 ∈ keys ∧ (revise? site.stage phase group (b.get? group.1)).isSome := by
  rcases refused with get | ⟨revised, set⟩
  · obtain ⟨-, wrong, -⟩ := rejects.of_failsAt get
    cases wrong
  · obtain ⟨-, -, key, mem, same⟩ := rejects.of_failsAt set
    exact ⟨Option.some.inj same ▸ mem, revised⟩

theorem Done.contained (done_ : Done plan site phase b groups done) (nodup : (groups.map Prod.fst).Nodup)
    (rejects : plan.Rejects site.scope keys) :
    Contained keys b (afterPhase site.stage phase b groups) (afterPhase site.stage phase b done) where
  inside _ mem := done_.get?_of_not_passesAt nodup (rejects.not_passesAt mem)
  outside _ apart := done_.get?_of_not_refused nodup fun _ _ same _ refused =>
    apart (same ▸ (refused_of_rejects rejects refused).1)

/-- All groups get done, unless the bucket of a rejected key would have to be written. -/
theorem Done.eq_iff_of_rejects (done_ : Done plan site phase b groups done) (nodup : (groups.map Prod.fst).Nodup)
    (rejects : plan.Rejects site.scope keys) :
    done = groups ↔ ∀ group ∈ groups, group.1 ∈ keys →
      ¬ (revise? site.stage phase group (b.get? group.1)).isSome := by
  constructor
  · rintro rfl group mem struck revised
    exact rejects.not_passesAt struck (done_.written group mem revised)
  · intro free
    refine done_.eq_of_not_refused nodup fun group mem f refused => ?_
    obtain ⟨struck, revised⟩ := refused_of_rejects rejects refused
    exact free group mem struck revised

end Phase

/-! ## One stage -/

def Retracts (q : Queues) (b : Buckets) (keys : Set Key) : Prop :=
  ∃ key ∈ keys, key ∈ q.retractions.map Prod.fst ∧ (b.get? key).isSome

def Adds (q : Queues) (keys : Set Key) : Prop := ∃ key ∈ keys, key ∈ q.additions.map Prod.fst

section Stage

variable {plan : FaultPlan} {workers : Nat} {site : Site} {q q' : Queues} {s : Store}
  {retracted added : List Revision} {ok : Bool} {keys : Set Key}

theorem Done.eq_iff_of_retract {done : List Group} {b : Buckets}
    (done_ : Done plan site .retract b (order workers (groupByKey q.retractions)) done)
    (rejects : plan.Rejects site.scope keys) :
    done = order workers (groupByKey q.retractions) ↔ ¬ Retracts q b keys := by
  rw [done_.eq_iff_of_rejects (nodup_order workers _) rejects]
  simp only [isSome_revise?_retract]
  constructor
  · rintro free ⟨key, struck, queued, stored⟩
    obtain ⟨group, mem, rfl⟩ := exists_group_iff.2 queued
    exact free group mem struck stored
  · intro free group mem struck stored
    exact free ⟨group.1, struck, exists_group_iff.1 ⟨group, mem, rfl⟩, stored⟩

theorem Done.eq_iff_of_add {done : List Group} {b : Buckets}
    (done_ : Done plan site .add b (order workers (groupByKey q.additions)) done)
    (rejects : plan.Rejects site.scope keys) :
    done = order workers (groupByKey q.additions) ↔ ¬ Adds q keys := by
  rw [done_.eq_iff_of_rejects (nodup_order workers _) rejects]
  constructor
  · rintro free ⟨key, struck, queued⟩
    obtain ⟨group, mem, rfl⟩ := exists_group_iff.2 queued
    exact free group mem struck (isSome_revise?_add _ (mem_order.1 mem).2 _)
  · intro free group mem struck _
    exact free ⟨group.1, struck, exists_group_iff.1 ⟨group, mem, rfl⟩⟩

/-- A stage whose writes are rejected ends early, ends badly or ends well. -/
theorem Worked.of_rejects (worked : Worked plan workers site q s retracted added q' ok)
    (rejects : plan.Rejects site.scope keys) :
    let before := s.buckets site.scope
    let middle := afterPhase site.stage .retract before (order workers (groupByKey q.retractions))
    let after := applyAll added (applyAll retracted before)
    (Retracts q before keys → ok = false ∧ q' = q.drop .retract ∧ Contained keys before middle after) ∧
      (¬ Retracts q before keys → q' = {} ∧ (ok = true ↔ ¬ Adds q keys) ∧
        Contained keys before (afterPhase site.stage .add middle (order workers (groupByKey q.additions))) after) := by
  intro before middle after
  cases worked with
  | halted part short retract =>
    subst retract
    have struck := mt (part.eq_iff_of_retract rejects).2 short
    exact ⟨fun _ => ⟨rfl, rfl, part.contained (nodup_order workers _) rejects⟩, fun free => absurd free struck⟩
  | ended part whole retract part' whole' add =>
    subst whole retract add
    have free := (part.eq_iff_of_retract rejects).1 rfl
    refine ⟨fun struck => absurd struck free, fun _ => ⟨rfl, whole'.trans (part'.eq_iff_of_add rejects), ?_⟩⟩
    -- The first phase passed by the rejected keys, so the second finds their buckets as they were.
    have kept := part.contained (nodup_order workers _) rejects
    have contained := part'.contained (nodup_order workers _) rejects
    exact ⟨fun key mem => (contained.inside key mem).trans (kept.inside key mem), contained.outside⟩

/-- What a stage makes of its queues is the same whenever all goes well. -/
theorem Worked.unique {plan' : FaultPlan} {retracted' added' : List Revision} {q'' : Queues}
    (worked : Worked plan workers site q s retracted added q' true)
    (worked' : Worked plan' workers site q s retracted' added' q'' true) :
    retracted = retracted' ∧ added = added' ∧ q' = q'' := by
  cases worked with
  | ended part whole retract part₁ whole₁ add =>
    cases worked' with
    | ended part' whole' retract' part₂ whole₂ add' =>
      obtain rfl : retracted = retracted' := by rw [retract, retract', whole, whole']
      exact ⟨rfl, by rw [add, add', whole₁.1 rfl, whole₂.1 rfl], rfl⟩

theorem Commits.unique {plan' : FaultPlan} {sites : List Site} {qs qs' qs'' : List Queues} {s' s'' : Store}
    (commits : Commits plan workers sites qs s true qs' s')
    (commits' : Commits plan' workers sites qs s true qs'' s'') :
    qs' = qs'' ∧ s' = s'' := by
  generalize all : true = ok at commits
  induction commits generalizing qs'' s'' with
  | nil =>
    cases commits'
    exact ⟨rfl, rfl⟩
  | unflushed => cases all
  | cons worked later ih =>
    obtain ⟨rfl, rfl⟩ := Bool.and_eq_true_iff.1 all.symm
    obtain ⟨retracted', added', q'', ok₁, worked', ⟨f, -, wrong, -⟩ | ⟨ok₂, qs₂, later', both, rfl⟩⟩ := commits'.inv
    · cases wrong
    obtain ⟨rfl, rfl⟩ := Bool.and_eq_true_iff.1 both.symm
    obtain ⟨rfl, rfl, rfl⟩ := worked.unique worked'
    obtain ⟨rfl, rfl⟩ := ih later' rfl
    exact ⟨rfl, rfl⟩

end Stage

end Ingest

theorem FaultPlan.never_rejects (scope : ScopeId) : FaultPlan.never.Rejects scope ∅ where
  rejected _ _ _ mem := nomatch mem
  only _ _ _ failing := nomatch failing

namespace Ingestor

open Ingest

variable {i : Ingestor} {w : World} {root : Site} {behindSites : List Site} {q : Queues} {qs : List Queues}

section Rejected

variable (sites : i.sites = root :: behindSites) (queues : i.queues = q :: qs)
  (length : qs.length = behindSites.length) (placed : Placed (root :: behindSites) w.store) {keys : Set Key}
  (rejects : w.plan.Rejects root.scope keys)

include sites queues length placed rejects

/-- Rejected writes are the root's own business: the stages behind it are committed as ever. -/
theorem run_commit_of_rejects :
    ∃ r retracted added q' ok qs' w', Ingestor.commit.run i w = (r, { i with queues := q' :: qs' }, w') ∧
      Answers r ok ∧ Worked w.plan i.config.commitWorkers root q w.store retracted added q' ok ∧
      Commits w.plan i.config.commitWorkers (root :: behindSites) (q :: qs) w.store ok (q' :: qs') w'.store ∧
      w'.store.buckets root.scope = applyAll added (applyAll retracted (w.store.buckets root.scope)) := by
  obtain ⟨r, ok, qs'', w', ran, answers, -, commits⟩ := run_commit i.config.commitWorkers (root :: behindSites)
    (q :: qs) w (congrArg (· + 1) length) rejects.civil placed.open_
  obtain ⟨retracted, added, q', ok₁, worked, ⟨f, failing, -⟩ | ⟨ok₂, qs', later, both, rfl⟩⟩ := commits.inv
  · exact absurd failing (rejects.flushes _ f)
  -- The scopes behind the root are spared, so they end as the root does.
  obtain rfl := later.ok_of_spares (fun site _ => rejects.flushes site.scope) fun site mem =>
    rejects.spares fun same => placed.head_not_mem (same ▸ List.mem_map_of_mem mem)
  obtain rfl : ok = ok₁ := by rw [both, Bool.and_true]
  refine ⟨r, retracted, added, q', ok, qs', w', ?_, answers, worked, commits, ?_⟩
  · rw [run_commit_eq, sites, queues, ran]
  · rw [later.buckets_of_not_mem placed.head_not_mem, (buckets_revised placed).1]

end Rejected

theorem buckets_of_retract_never (q : Queues) (length : qs.length = behindSites.length)
    (placed : Placed (root :: behindSites) w.store) (workers : Nat) :
    ((phase workers root behindSites (behind (Ingest.commit workers behindSites)) .retract).run (q :: qs)
        { w with plan := .never }).2.2.store.buckets root.scope =
      afterPhase root.stage .retract (w.store.buckets root.scope) (order workers (groupByKey q.retractions)) := by
  obtain ⟨done, rs, v, part, revised, -, store, ⟨whole, n, ran⟩ | ⟨short, -⟩⟩ :=
    @run_phase workers root behindSites (run_commit workers behindSites) q qs length .retract { w with plan := .never }
      (FaultPlan.never_rejects root.scope).civil placed.open_
  · rw [ran]
    show v.store.buckets root.scope = _
    rw [store, buckets_storeAll_self _ (placed.open_ root List.mem_cons_self), revised, whole]
    rfl
  · exact absurd (part.eq_of_spares (nodup_order workers _) (FaultPlan.never_spares root.scope)) short

/-- Where a store rejects writes under some keys of the root and nothing else fails, every bucket of the
root under another key becomes what it would have become.  The commit fails after its first phase if one
of the keys is retracted from, else after its second if one of them is added to, and else not at all. -/
theorem rejections_contained (sites : i.sites = root :: behindSites) (queues : i.queues = q :: qs)
    (length : qs.length = behindSites.length) (placed : Placed (root :: behindSites) w.store) {keys : Set Key}
    (rejects : w.plan.Rejects root.scope keys) :
    let before := w.store.buckets root.scope
    let spared : World := { w with plan := .never }
    let retracted := (phase i.config.commitWorkers root behindSites
      (behind (Ingest.commit i.config.commitWorkers behindSites)) .retract).run i.queues spared
    let whole := Ingestor.commit.run i spared
    ∃ r q' qs' w', Ingestor.commit.run i w = (r, { i with queues := q' :: qs' }, w') ∧
      (Retracts q before keys → (∃ e, r = .error (.error e)) ∧ q'.retractions = [] ∧ q'.additions = q.additions ∧
        Contained keys before (retracted.2.2.store.buckets root.scope) (w'.store.buckets root.scope)) ∧
      (¬ Retracts q before keys → Adds q keys → (∃ e, r = .error (.error e)) ∧ q' = {} ∧
        Contained keys before (whole.2.2.store.buckets root.scope) (w'.store.buckets root.scope)) ∧
      (¬ Retracts q before keys → ¬ Adds q keys → r = .ok () ∧ whole.1 = .ok () ∧
        whole.2.1 = { i with queues := q' :: qs' } ∧ whole.2.2.store = w'.store) := by
  intro before spared retracted whole
  obtain ⟨r, rs, rs', q', ok, qs', w', ran, answers, worked, commits, buckets⟩ :=
    run_commit_of_rejects sites queues length placed rejects
  obtain ⟨r₀, rs₀, rs₀', q₀, ok₀, qs₀, w₀, ran₀, answers₀, worked₀, commits₀, buckets₀⟩ :=
    @run_commit_of_rejects i spared root behindSites q qs sites queues length placed ∅
      (FaultPlan.never_rejects root.scope)
  -- Without rejected keys the commit takes the last of the three ways.
  obtain ⟨-, well, faultless⟩ := (worked₀.of_rejects (FaultPlan.never_rejects root.scope)).2
    (by rintro ⟨key, mem, -⟩; cases mem)
  obtain rfl : ok₀ = true := well.2 (by rintro ⟨key, mem, -⟩; cases mem)
  have phased := @buckets_of_retract_never w root behindSites qs q length placed i.config.commitWorkers
  rw [← buckets₀] at faultless
  obtain ⟨early, late⟩ := worked.of_rejects rejects
  rw [← buckets] at early late
  have whole_eq : whole = (r₀, { i with queues := q₀ :: qs₀ }, w₀) := ran₀
  refine ⟨r, q', qs', w', ran, fun struck => ?_, fun free struck => ?_, fun free unstruck => ?_⟩
  · obtain ⟨rfl, rfl, contained⟩ := early struck
    rw [← phased, ← queues] at contained
    exact ⟨answers, rfl, rfl, contained⟩
  · obtain ⟨rfl, added, contained⟩ := late free
    obtain rfl : ok = false := Bool.eq_false_iff.2 fun well => added.1 well struck
    refine ⟨answers, rfl, contained.inside, fun key apart => ?_⟩
    rw [contained.outside key apart, whole_eq]
    exact (faultless.outside key (Set.notMem_empty key)).symm
  · obtain ⟨rfl, added, -⟩ := late free
    obtain rfl : ok = true := added.2 unstruck
    obtain ⟨same, store⟩ := commits.unique commits₀
    rw [whole_eq]
    exact ⟨answers, answers₀, by rw [same], store.symm⟩

/-- Two buckets are retracted from, and the first one cannot be written. -/
theorem rejections_contained_one_of_two :
    let stages := (Pipeline.ofVerbs [.brokenDownBy "a" "A", .countUniqueValues "u" "U"]).stages
    let bucket : Document := ⟨[("A", .text "x"), ("Count", .int 2), ("U", .int 1)]⟩
    let event : Document := ⟨[("A", .text "x"), ("Count", .int 1), ("U", .int 1)]⟩
    let x : Key := ⟨[.text "x", .int 1]⟩
    let y : Key := ⟨[.text "y", .int 1]⟩
    let q : Queues := ⟨[(y, event), (x, event)], [(y, event), (x, event), (y, event)]⟩
    let i : Ingestor := ⟨stages.mapIdx fun n stage => ⟨stage, n⟩, [q, {}], {}, false⟩
    let plan : FaultPlan := fun _ call =>
      if call.scope = 0 ∧ call.kind = .set ∧ call.key? = some x then some (.error .markersExhausted) else none
    let w : World := { store := ⟨[{ values := ⟨[(x, bucket), (y, bucket)]⟩ }, {}], 0⟩, plan }
    ∃ e q' qs' w', Ingestor.commit.run i w = (.error (.error e), { i with queues := q' :: qs' }, w') ∧
      q'.additions = q.additions ∧ w'.store.get? 0 x = some bucket := by
  intro stages bucket event x y q i plan w
  have rejects : plan.Rejects 0 {x} := by
    constructor
    case rejected =>
      rintro n depth key rfl
      exact ⟨.markersExhausted, if_pos ⟨rfl, rfl, rfl⟩⟩
    case only =>
      intro n call f failing
      by_cases struck : call.scope = 0 ∧ call.kind = .set ∧ call.key? = some x
      · exact ⟨struck.1, struck.2.1, x, rfl, struck.2.2⟩
      · cases (if_neg struck).symm.trans failing
  obtain ⟨r, q', qs', w', ran, struck, -⟩ := @rejections_contained i w _ _ q [{}] rfl rfl rfl
    ⟨by decide, by decide⟩ {x} rejects
  obtain ⟨⟨e, rfl⟩, -, additions, contained⟩ := struck ⟨x, rfl, by decide, rfl⟩
  exact ⟨e, q', qs', w', ran, additions, contained.inside x rfl⟩

end Ingestor

end Rollup
