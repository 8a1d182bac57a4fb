import Rollup.Proofs.Ingest.Phases
import Rollup.Proofs.Store

/-!
# How groups are processed

Processing the groups of a phase revises the buckets of some of them (`Processed`).  A group is left
out because an access to its key fails, and for nothing else (`Done`), so where the store spares the
scope all of them are processed.
-/

namespace Rollup

namespace FaultPlan

def Fails (plan : FaultPlan) (scope : ScopeId) (f : Failure Error) : Prop :=
  ∃ n call, plan n call = some f ∧ call.scope = scope

def Spares (plan : FaultPlan) (scope : ScopeId) : Prop := ∀ f, ¬ plan.Fails scope f

/-- Only reads and writes of entries fail, and they do not crash. -/
def Mild (plan : FaultPlan) : Prop :=
  ∀ n call f, plan n call = some f → (call.kind = .get ∨ call.kind = .set) ∧ ∃ e, f = .error e

def Civil (plan : FaultPlan) : Prop := ∀ n call, plan n call ≠ some .crash

/-- Some call of a kind fails in this way. -/
def FailsAt (plan : FaultPlan) (scope : ScopeId) (kind : CallKind) (key? : Option Key) (f : Failure Error) : Prop :=
  ∃ n depth, plan n ⟨scope, depth, kind, key?⟩ = some f

def PassesAt (plan : FaultPlan) (scope : ScopeId) (kind : CallKind) (key? : Option Key) : Prop :=
  ∃ n depth, plan n ⟨scope, depth, kind, key?⟩ = none

def Opens (plan : FaultPlan) : Prop := ∀ scope key? f, ¬ plan.FailsAt scope .child key? f

section Plans

variable {plan : FaultPlan} {scope : ScopeId} {kind : CallKind} {key? : Option Key} {f : Failure Error}

theorem Mild.civil (mild : plan.Mild) : plan.Civil := by
  intro n call failing
  obtain ⟨-, e, wrong⟩ := mild n call .crash failing
  cases wrong

theorem Mild.not_failsAt (mild : plan.Mild) (other : kind ≠ .get ∧ kind ≠ .set) : ¬ plan.FailsAt scope kind key? f := by
  rintro ⟨n, depth, failing⟩
  obtain ⟨get | set, -⟩ := mild n _ f failing
  · exact other.1 get
  · exact other.2 set

theorem Mild.opens (mild : plan.Mild) : plan.Opens := fun _ _ _ => mild.not_failsAt ⟨nofun, nofun⟩

theorem Mild.flushes (mild : plan.Mild) : ¬ plan.FailsAt scope .commit key? f := mild.not_failsAt ⟨nofun, nofun⟩

theorem FailsAt.fails (failing : plan.FailsAt scope kind key? f) : plan.Fails scope f := by
  obtain ⟨n, depth, failing⟩ := failing
  exact ⟨n, _, failing, rfl⟩

theorem Civil.error_of_failsAt (civil : plan.Civil) (failing : plan.FailsAt scope kind key? f) :
    ∃ e, f = .error e := by
  obtain ⟨n, depth, failing⟩ := failing
  cases f with
  | error e => exact ⟨e, rfl⟩
  | crash => exact absurd failing (civil n _)

end Plans

end FaultPlan

namespace Ingest

variable {σ : Type}

/-- A scope after revisions. -/
def storeAll (scope : ScopeId) (rs : List Revision) (s : Store) : Store :=
  rs.foldl (fun s r => s.set scope r.key (some r.new)) s

theorem sameTree_storeAll (scope : ScopeId) (rs : List Revision) (s : Store) :
    Store.SameTree s (storeAll scope rs s) := by
  induction rs generalizing s with
  | nil => exact .refl s
  | cons r rest ih => exact (s.sameTree_set _ _ _).trans (ih _)

theorem length_storeAll (scope : ScopeId) (rs : List Revision) (s : Store) :
    (storeAll scope rs s).scopes.length = s.scopes.length :=
  (sameTree_storeAll scope rs s).length_scopes

theorem buckets_storeAll_self {scope : ScopeId} (rs : List Revision) {s : Store}
    (open_ : scope < s.scopes.length) : (storeAll scope rs s).buckets scope = applyAll rs (s.buckets scope) := by
  induction rs generalizing s with
  | nil => rfl
  | cons r rest ih =>
    rw [storeAll, List.foldl_cons, ← storeAll, ih (by rw [s.length_set]; exact open_),
      s.buckets_set_self open_]
    rfl

theorem buckets_storeAll_of_ne {scope other : ScopeId} (apart : other ≠ scope) (rs : List Revision) (s : Store) :
    (storeAll scope rs s).buckets other = s.buckets other := by
  induction rs generalizing s with
  | nil => rfl
  | cons r rest ih => exact (ih _).trans (s.buckets_set_of_ne apart _ _)

/-! ## One group -/

theorem run_call (kind : CallKind) (scope : ScopeId) (key? : Option Key) (l : σ) (w : World) :
    (∃ f, w.plan w.calls ⟨scope, (w.store.scope scope).depth, kind, key?⟩ = some f ∧
      (Access.call kind scope key?).run l w = (.error f, l, { w with calls := w.calls + 1 })) ∨
    w.plan.PassesAt scope kind key? ∧
      (Access.call kind scope key?).run l w = (.ok (), l, { w with calls := w.calls + 1 }) := by
  simp only [Access.call, Action.run_bind, Action.run_getWorld, Action.run_modifyWorld]
  split
  · next f failing => exact .inl ⟨f, failing, rfl⟩
  · next passing => exact .inr ⟨⟨_, _, passing⟩, rfl⟩

theorem run_get? (scope : ScopeId) (key : Key) (l : σ) (w : World) :
    ∃ w', w'.plan = w.plan ∧ w'.store = w.store ∧
      ((∃ f, w.plan.FailsAt scope .get (some key) f ∧ (Access.get? scope key).run l w = (.error f, l, w')) ∨
      (Access.get? scope key).run l w = (.ok (w.store.get? scope key), l, w')) := by
  refine ⟨{ w with calls := w.calls + 1 }, rfl, rfl, ?_⟩
  rw [Access.get?, Action.run_bind]
  rcases run_call .get scope (some key) l w with ⟨f, failing, ran⟩ | ⟨-, ran⟩
  · exact .inl ⟨f, ⟨_, _, failing⟩, by rw [ran]⟩
  · exact .inr (by rw [ran]; rfl)

theorem run_set (scope : ScopeId) (key : Key) (doc : Option Document) (l : σ) (w : World) :
    ∃ w', w'.plan = w.plan ∧
      ((∃ f, w.plan.FailsAt scope .set (some key) f ∧ w'.store = w.store ∧
        (Access.set scope key doc).run l w = (.error f, l, w')) ∨
      w.plan.PassesAt scope .set (some key) ∧ w'.store = w.store.set scope key doc ∧
        (Access.set scope key doc).run l w = (.ok (), l, w')) := by
  rw [Access.set, Action.run_bind]
  rcases run_call .set scope (some key) l w with ⟨f, failing, ran⟩ | ⟨passing, ran⟩
  · exact ⟨{ w with calls := w.calls + 1 }, rfl, .inl ⟨f, ⟨_, _, failing⟩, rfl, by rw [ran]⟩⟩
  · exact ⟨{ w with calls := w.calls + 1, store := w.store.set scope key doc }, rfl,
      .inr ⟨passing, rfl, by rw [ran]; rfl⟩⟩

theorem run_plan? (site : Site) (phase : Phase) (group : Group) (l : σ) (w : World) :
    ∃ w', w'.plan = w.plan ∧ w'.store = w.store ∧
      ((∃ f, w.plan.FailsAt site.scope .get (some group.1) f ∧
        (plan? site phase group).run l w = (.error f, l, w')) ∨
      (plan? site phase group).run l w =
        (.ok (revise? site.stage phase group ((w.store.buckets site.scope).get? group.1)), l, w')) := by
  obtain ⟨key, docs⟩ := group
  obtain ⟨w', plan, store, access⟩ := run_get? site.scope key l w
  rw [Store.get?_eq] at access
  -- A retraction reads the bucket first; an addition folds its documents first, and reads if that gives an aggregate.
  cases phase with
  | retract =>
    rw [plan?, Action.run_bind]
    rcases access with ⟨f, fails, ran⟩ | ran
    · exact ⟨w', plan, store, .inl ⟨f, fails, by rw [ran]⟩⟩
    · simp only [ran]
      cases (w.store.buckets site.scope).get? key with
      | none => exact ⟨w'.record (.key .skipped), plan, store, .inr rfl⟩
      | some stored => exact ⟨w', plan, store, .inr rfl⟩
  | add =>
    rw [plan?]
    cases folded : site.stage.reduce? docs with
    | none =>
      refine ⟨w, rfl, rfl, .inr ?_⟩
      cases (w.store.buckets site.scope).get? key <;> simp [revise?, folded]
    | some candidate =>
      simp only [Action.run_bind]
      rcases access with ⟨f, fails, ran⟩ | ran
      · exact ⟨w', plan, store, .inl ⟨f, fails, by rw [ran]⟩⟩
      · refine ⟨w', plan, store, .inr ?_⟩
        simp only [ran]
        cases (w.store.buckets site.scope).get? key with
        | none => simp [revise?, folded]
        | some stored => simp [revise?, folded]

theorem run_write (site : Site) (r : Revision) (l : σ) (w : World) :
    ∃ w', w'.plan = w.plan ∧
      ((∃ f, w.plan.FailsAt site.scope .set (some r.key) f ∧ w'.store = w.store ∧
        (write site r).run l w = (.error f, l, w')) ∨
      w.plan.PassesAt site.scope .set (some r.key) ∧ w'.store = w.store.set site.scope r.key (some r.new) ∧
        (write site r).run l w = (.ok (), l, w')) := by
  obtain ⟨w', plan, access⟩ := run_set site.scope r.key (some r.new) l w
  rw [write, Action.run_bind]
  rcases access with ⟨f, fails, store, ran⟩ | ⟨passing, store, ran⟩
  · exact ⟨w', plan, .inl ⟨f, fails, store, by rw [ran]⟩⟩
  · exact ⟨w'.record (.key r.outcome), plan, .inr ⟨passing, store, by rw [ran]; rfl⟩⟩

/-- The bucket of a group may fail to be read, or to be written after it was revised. -/
def Refused (plan : FaultPlan) (site : Site) (phase : Phase) (b : Buckets) (group : Group) (f : Failure Error) : Prop :=
  plan.FailsAt site.scope .get (some group.1) f ∨
    (revise? site.stage phase group (b.get? group.1)).isSome ∧ plan.FailsAt site.scope .set (some group.1) f

theorem Refused.fails {plan : FaultPlan} {site : Site} {phase : Phase} {b : Buckets} {group : Group}
    {f : Failure Error} (refused : Refused plan site phase b group f) : plan.Fails site.scope f :=
  refused.elim FaultPlan.FailsAt.fails fun written => written.2.fails

/-- Processing a group fails without a trace, or revises its bucket. -/
theorem run_processGroup (site : Site) (phase : Phase) (group : Group) (l : σ) (w : World) :
    ∃ w', w'.plan = w.plan ∧
      ((∃ f, Refused w.plan site phase (w.store.buckets site.scope) group f ∧ w'.store = w.store ∧
        (processGroup site phase group).run l w = (.error f, l, w')) ∨
      ∃ r?, r? = revise? site.stage phase group ((w.store.buckets site.scope).get? group.1) ∧
        (r?.isSome → w.plan.PassesAt site.scope .set (some group.1)) ∧
        w'.store = storeAll site.scope r?.toList w.store ∧
        (processGroup site phase group).run l w = (.ok r?, l, w')) := by
  obtain ⟨v, plan, store, planned⟩ := run_plan? site phase group l w
  rw [processGroup, Action.run_bind]
  rcases planned with ⟨f, fails, ran⟩ | ran
  · exact ⟨v, plan, .inl ⟨f, .inl fails, store, by rw [ran]⟩⟩
  · simp only [ran]
    cases revised : revise? site.stage phase group ((w.store.buckets site.scope).get? group.1) with
    | none => exact ⟨v, plan, .inr ⟨none, rfl, nofun, store, rfl⟩⟩
    | some r =>
      have same := (revise?_keeps revised).1
      obtain ⟨w', plan', written⟩ := run_write site r l v
      rw [plan, same] at written
      simp only [Action.run_bind]
      rcases written with ⟨f, fails, store', ran'⟩ | ⟨passing, store', ran'⟩
      · refine ⟨w', plan'.trans plan, .inl ⟨f, .inr ⟨?_, fails⟩, store'.trans store, by rw [ran']⟩⟩
        rw [revised]
        rfl
      · refine ⟨w', plan'.trans plan, .inr ⟨some r, rfl, fun _ => passing, ?_, by rw [ran']; rfl⟩⟩
        rw [store', store, ← same]
        rfl

/-! ## Many groups -/

theorem revisions_append (stage : Stage) (phase : Phase) (b : Buckets) (front back : List Group) :
    revisions stage phase b (front ++ back) = revisions stage phase b front ++ revisions stage phase b back :=
  List.filterMap_append

/-- Groups of other keys do not see revisions. -/
theorem revisions_applyAll {stage : Stage} {phase : Phase} {rs : List Revision} {groups : List Group}
    (apart : ∀ group ∈ groups, group.1 ∉ rs.map Revision.key) (b : Buckets) :
    revisions stage phase (applyAll rs b) groups = revisions stage phase b groups := by
  refine List.filterMap_congr fun group mem => ?_
  rw [get?_applyAll_of_not_mem (apart group mem)]

theorem storeAll_append (scope : ScopeId) (front back : List Revision) (s : Store) :
    storeAll scope (front ++ back) s = storeAll scope back (storeAll scope front s) :=
  List.foldl_append

/-- Some groups of a phase are done.  Whoever is left out was refused, and where a bucket was revised a
write has passed. -/
structure Done (plan : FaultPlan) (site : Site) (phase : Phase) (b : Buckets) (groups done : List Group) : Prop where
  part : done.Sublist groups
  refused : ∀ group ∈ groups, group ∉ done → ∃ f, Refused plan site phase b group f
  written : ∀ group ∈ done, (revise? site.stage phase group (b.get? group.1)).isSome →
    plan.PassesAt site.scope .set (some group.1)

/-- Groups were processed, and any that was left out counts as a failure. -/
structure Processed (site : Site) (phase : Phase) (plan : FaultPlan) (s : Store) (groups done : List Group)
    (p p' : Progress) (s' : Store) : Prop extends Done plan site phase (s.buckets site.scope) groups done where
  revisions : p'.revisions = p.revisions ++ revisions site.stage phase (s.buckets site.scope) done
  store : s' = storeAll site.scope (Ingest.revisions site.stage phase (s.buckets site.scope) done) s
  failed : p'.failed = none ↔ p.failed = none ∧ done = groups

section Done

variable {plan : FaultPlan} {site : Site} {phase : Phase} {b b' : Buckets} {groups groups' done done' : List Group}

theorem Done.nil : Done plan site phase b [] [] :=
  ⟨List.Sublist.refl _, fun _ mem => (by cases mem), fun _ mem => by cases mem⟩

theorem Done.append (first : Done plan site phase b groups done) (second : Done plan site phase b groups' done') :
    Done plan site phase b (groups ++ groups') (done ++ done') where
  part := first.part.append second.part
  refused group mem left := by
    rw [List.mem_append, not_or] at left
    rcases List.mem_append.1 mem with mem | mem
    · exact first.refused group mem left.1
    · exact second.refused group mem left.2
  written group mem := by
    rcases List.mem_append.1 mem with mem | mem
    · exact first.written group mem
    · exact second.written group mem

theorem Done.congr (done_ : Done plan site phase b groups done)
    (same : ∀ group ∈ groups, b'.get? group.1 = b.get? group.1) : Done plan site phase b' groups done where
  part := done_.part
  refused group mem left := by
    obtain ⟨f, refused⟩ := done_.refused group mem left
    rw [Refused, ← same group mem] at refused
    exact ⟨f, refused⟩
  written group mem := by
    rw [same group (done_.part.subset mem)]
    exact done_.written group mem

theorem Done.nodup (done_ : Done plan site phase b groups done) (nodup : (groups.map Prod.fst).Nodup) :
    (done.map Prod.fst).Nodup := nodup.sublist (done_.part.map Prod.fst)

/-- A bucket that is not refused does not see that others are. -/
theorem Done.get?_of_not_refused {key : Key} (done_ : Done plan site phase b groups done)
    (nodup : (groups.map Prod.fst).Nodup)
    (free : ∀ group ∈ groups, group.1 = key → ∀ f, ¬ Refused plan site phase b group f) :
    (afterPhase site.stage phase b done).get? key = (afterPhase site.stage phase b groups).get? key := by
  by_cases listed : key ∈ groups.map Prod.fst
  · obtain ⟨⟨key, docs⟩, mem, rfl⟩ := List.mem_map.1 listed
    have kept : (key, docs) ∈ done := by
      by_contra left
      obtain ⟨f, refused⟩ := done_.refused _ mem left
      exact free _ mem rfl f refused
    rw [get?_afterPhase_of_mem (done_.nodup nodup) kept, get?_afterPhase_of_mem nodup mem]
  · rw [get?_afterPhase_of_not_mem listed,
      get?_afterPhase_of_not_mem fun mem => listed ((done_.part.map Prod.fst).subset mem)]

theorem Done.eq_of_not_refused (done_ : Done plan site phase b groups done) (nodup : (groups.map Prod.fst).Nodup)
    (free : ∀ group ∈ groups, ∀ f, ¬ Refused plan site phase b group f) : done = groups := by
  refine done_.part.eq_of_length_le (List.Subperm.length_le ((List.Nodup.of_map _ nodup).subperm fun group mem => ?_))
  by_contra left
  obtain ⟨f, refused⟩ := done_.refused group mem left
  exact free group mem f refused

theorem Done.eq_of_spares (done_ : Done plan site phase b groups done) (nodup : (groups.map Prod.fst).Nodup)
    (spares : plan.Spares site.scope) : done = groups :=
  done_.eq_of_not_refused nodup fun _ _ f refused => spares f refused.fails

theorem append_eq_append_iff_of_sublist {α : Type} {xs ys zs ws : List α} (first : xs.Sublist ys)
    (second : zs.Sublist ws) : xs ++ zs = ys ++ ws ↔ xs = ys ∧ zs = ws := by
  refine ⟨fun same => ?_, fun ⟨one, two⟩ => by rw [one, two]⟩
  have lengths := congrArg List.length same
  rw [List.length_append, List.length_append] at lengths
  have one := first.length_le
  have two := second.length_le
  exact ⟨first.eq_of_length (by omega), second.eq_of_length (by omega)⟩

end Done

/-- Groups that are processed one after the other do not see each other. -/
theorem Processed.trans {site : Site} {phase : Phase} {plan : FaultPlan} {s t u : Store}
    {groups groups' done done' : List Group} {p q r : Progress} (open_ : site.scope < s.scopes.length)
    (nodup : ((groups ++ groups').map Prod.fst).Nodup) (first : Processed site phase plan s groups done p q t)
    (second : Processed site phase plan t groups' done' q r u) :
    Processed site phase plan s (groups ++ groups') (done ++ done') p r u := by
  -- The later groups have other keys, so they find their buckets as they were at the start.
  rw [List.map_append, List.nodup_append] at nodup
  have apart : ∀ group ∈ groups', group.1 ∉
      (Ingest.revisions site.stage phase (s.buckets site.scope) done).map Revision.key := by
    intro group mem revised
    have before := (keys_revisions_sublist site.stage phase _ done).subset revised
    exact nodup.2.2 _ ((first.part.map Prod.fst).subset before) _ (List.mem_map_of_mem mem) rfl
  have buckets : t.buckets site.scope =
      applyAll (Ingest.revisions site.stage phase (s.buckets site.scope) done) (s.buckets site.scope) := by
    rw [first.store, buckets_storeAll_self _ open_]
  have same : Ingest.revisions site.stage phase (t.buckets site.scope) done' =
      Ingest.revisions site.stage phase (s.buckets site.scope) done' := by
    rw [buckets]
    exact revisions_applyAll (fun group mem => apart group (second.part.subset mem)) _
  constructor
  case toDone =>
    refine first.toDone.append (second.toDone.congr fun group mem => ?_)
    rw [buckets, get?_applyAll_of_not_mem (apart group mem)]
  case revisions => rw [second.revisions, first.revisions, same, revisions_append, List.append_assoc]
  case store => rw [second.store, same, first.store, revisions_append, storeAll_append]
  case failed =>
    rw [second.failed, first.failed, append_eq_append_iff_of_sublist first.part second.part, and_assoc]

theorem revisions_singleton (stage : Stage) (phase : Phase) (b : Buckets) (group : Group) :
    revisions stage phase b [group] = (revise? stage phase group (b.get? group.1)).toList := by
  rw [revisions, List.filterMap_cons]
  cases revise? stage phase group (b.get? group.1) <;> rfl

theorem Processed.nil {site : Site} {phase : Phase} {plan : FaultPlan} {s : Store} {p : Progress} :
    Processed site phase plan s [] [] p p s where
  toDone := .nil
  revisions := (List.append_nil _).symm
  store := rfl
  failed := ⟨fun none => ⟨none, rfl⟩, And.left⟩

theorem Processed.of_refused {site : Site} {phase : Phase} {plan : FaultPlan} {s : Store} {group : Group}
    {e : Error} (refused : Refused plan site phase (s.buckets site.scope) group (.error e)) (p : Progress) :
    Processed site phase plan s [group] [] p (p.add (.error e)) s where
  toDone := ⟨List.nil_sublist _, fun _ mem _ => ⟨_, List.mem_singleton.1 mem ▸ refused⟩, fun _ mem => by cases mem⟩
  revisions := (List.append_nil _).symm
  store := rfl
  failed := by simp [Progress.add]

theorem Processed.of_revised {site : Site} {phase : Phase} {plan : FaultPlan} {s s' : Store} {group : Group}
    {r? : Option Revision} (revised : r? = revise? site.stage phase group ((s.buckets site.scope).get? group.1))
    (written : r?.isSome → plan.PassesAt site.scope .set (some group.1))
    (store : s' = storeAll site.scope r?.toList s) (p : Progress) :
    Processed site phase plan s [group] [group] p (p.add (.ok r?)) s' := by
  subst revised
  constructor
  case toDone =>
    refine ⟨List.Sublist.refl _, fun group mem left => absurd mem left, fun other mem => ?_⟩
    rw [List.mem_singleton.1 mem]
    exact written
  case revisions =>
    rw [revisions_singleton]
    rfl
  case store =>
    rw [revisions_singleton]
    exact store
  case failed => exact ⟨fun none => ⟨none, rfl⟩, And.left⟩

theorem run_processAll (site : Site) (phase : Phase) {groups : List Group}
    (nodup : (groups.map Prod.fst).Nodup) (p : Progress) (l : σ) (w : World) (civil : w.plan.Civil)
    (open_ : site.scope < w.store.scopes.length) :
    ∃ done p' w', (processAll site phase groups p).run l w = (.ok p', l, w') ∧ w'.plan = w.plan ∧
      Processed site phase w.plan w.store groups done p p' w'.store := by
  induction groups generalizing p w with
  | nil => exact ⟨[], p, w, rfl, rfl, .nil⟩
  | cons group rest ih =>
    have later : (rest.map Prod.fst).Nodup := (List.nodup_cons.1 nodup).2
    obtain ⟨v, plan, processed⟩ := run_processGroup site phase group l w
    -- Whatever came of the first group is one step, after which the others follow.
    suffices ∃ done q, Processed site phase w.plan w.store [group] done p q v.store ∧
        (processAll site phase (group :: rest) p).run l w = (processAll site phase rest q).run l v by
      obtain ⟨done, q, first, ran⟩ := this
      have kept : site.scope < v.store.scopes.length := by
        rw [first.store, length_storeAll]
        exact open_
      obtain ⟨done', p', w', ran', plan', second⟩ := ih later q v (plan ▸ civil) kept
      rw [plan] at second
      exact ⟨done ++ done', p', w', ran.trans ran', plan'.trans plan, first.trans open_ nodup second⟩
    rcases processed with ⟨f, refused, store, ran⟩ | ⟨r?, revised, written, store, ran⟩
    · obtain ⟨e, rfl⟩ : ∃ e, f = .error e :=
        refused.elim civil.error_of_failsAt fun written => civil.error_of_failsAt written.2
      refine ⟨[], p.add (.error e), by rw [store]; exact .of_refused refused p, ?_⟩
      rw [processAll, Action.run_bind, Action.run_attempt, ran]
    · refine ⟨[group], p.add (.ok r?), .of_revised revised written store p, ?_⟩
      rw [processAll, Action.run_bind, Action.run_attempt, ran]

theorem run_processWorkers (site : Site) (phase : Phase) {lists : List (List Group)}
    (nodup : (lists.flatten.map Prod.fst).Nodup) (p : Progress) (l : σ) (w : World) (civil : w.plan.Civil)
    (open_ : site.scope < w.store.scopes.length) :
    ∃ done p' w', (processWorkers site phase lists p).run l w = (.ok p', l, w') ∧ w'.plan = w.plan ∧
      Processed site phase w.plan w.store lists.flatten done p p' w'.store := by
  induction lists generalizing p w with
  | nil => exact ⟨[], p, w, rfl, rfl, .nil⟩
  | cons groups rest ih =>
    rw [List.flatten_cons] at nodup
    have parts := nodup
    rw [List.map_append, List.nodup_append] at parts
    obtain ⟨done, q, v, ran, plan, first⟩ := run_processAll site phase parts.1 {} l w civil open_
    have kept : site.scope < v.store.scopes.length := by
      rw [first.store, length_storeAll]
      exact open_
    -- A worker starts with no progress of its own, which is joined to that of the others.
    have joined : Processed site phase w.plan w.store groups done p (p.join q) v.store := by
      refine ⟨first.toDone, ?_, first.store, ?_⟩
      · rw [Progress.join, first.revisions]
        rfl
      · have own : q.failed = none ↔ done = groups := by simpa using first.failed
        rw [Progress.join, Option.or_eq_none_iff, own]
    obtain ⟨done', p', w', ran', plan', second⟩ := ih parts.2.1 (p.join q) v (plan ▸ civil) kept
    rw [plan] at second
    refine ⟨done ++ done', p', w', ?_, plan'.trans plan, joined.trans open_ nodup second⟩
    rw [processWorkers, Action.run_bind, Action.run_attempt, ran]
    exact ran'

def order (workers : Nat) (groups : List Group) : List Group :=
  if isDivided workers groups then (partitions workers groups).flatten else groups

theorem order_perm (workers : Nat) (groups : List Group) : (order workers groups).Perm groups := by
  rw [order]
  split
  · exact flatten_partitions_perm workers groups
  · exact List.Perm.refl _

/-- Processing groups revises the buckets of those that are not refused, and fails if any is. -/
theorem run_process (workers : Nat) (site : Site) (phase : Phase) {groups : List Group}
    (nodup : (groups.map Prod.fst).Nodup) (l : σ) (w : World) (civil : w.plan.Civil)
    (open_ : site.scope < w.store.scopes.length) :
    ∃ done p w', (process workers site phase groups).run l w = (.ok p, l, w') ∧ w'.plan = w.plan ∧
      Processed site phase w.plan w.store (order workers groups) done {} p w'.store := by
  have nodup' : ((order workers groups).map Prod.fst).Nodup :=
    ((order_perm workers groups).map Prod.fst).nodup_iff.2 nodup
  rw [order] at nodup' ⊢
  rw [process]
  split
  · next divided =>
    rw [if_pos divided] at nodup'
    exact run_processWorkers site phase nodup' {} l w civil open_
  · exact run_processAll site phase nodup {} l w civil open_

end Ingest

end Rollup
