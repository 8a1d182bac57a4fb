import Rollup.Proofs.Concurrent.Schedules
import Rollup.Proofs.Ingest.Opening

/-!
# Dealing groups to a crew

What a crew makes of a scope does not depend on how the groups are dealt to its workers, nor on how
their calls interleave.  Every worker has an account of what it has written and what it will still
write, as if it were alone with the buckets as they were before (`Worker.account`); calls of others
do not change it, since they are about other keys.  So when the crew has ended, what it has revised
is what one worker revises, in the order in which the groups were dealt.
-/

namespace Rollup

namespace Ingest

variable {σ : Type}

theorem storeAll_eq_modify (scope : ScopeId) (rs : List Revision) (s : Store) :
    storeAll scope rs s = s.modify scope fun x => { x with values := applyAll rs x.values } := by
  induction rs generalizing s with
  | nil => exact congrArg (Store.mk · s.nextMarker) (List.modify_id scope s.scopes).symm
  | cons r rest ih =>
    rw [storeAll, List.foldl_cons, ← storeAll, ih, Store.set, Store.modify, Store.modify, List.modify_modify_eq]
    rfl

theorem get?_applyAll_perm {rs rs' : List Revision} (perm : rs.Perm rs') (nodup : (rs.map Revision.key).Nodup)
    (b : Buckets) (key : Key) : (applyAll rs b).get? key = (applyAll rs' b).get? key := by
  have keys := perm.map Revision.key
  by_cases listed : key ∈ rs.map Revision.key
  · obtain ⟨r, mem, rfl⟩ := List.mem_map.1 listed
    rw [get?_applyAll_of_mem nodup mem, get?_applyAll_of_mem (keys.nodup_iff.1 nodup) (perm.subset mem)]
  · rw [get?_applyAll_of_not_mem listed, get?_applyAll_of_not_mem fun mem => listed (keys.mem_iff.2 mem)]

/-- Buckets under different keys may be written in any order. -/
theorem storeAll_perm {scope : ScopeId} {rs rs' : List Revision} (perm : rs.Perm rs')
    (nodup : (rs.map Revision.key).Nodup) {s : Store} (sorted : (s.buckets scope).Sorted) :
    storeAll scope rs s = storeAll scope rs' s := by
  have values : applyAll rs (s.buckets scope) = applyAll rs' (s.buckets scope) :=
    (sorted_applyAll sorted rs).ext (sorted_applyAll sorted rs') (get?_applyAll_perm perm nodup _)
  rw [storeAll_eq_modify, storeAll_eq_modify]
  refine congrArg (Store.mk · s.nextMarker) (List.ext_getElem? fun i => ?_)
  rw [List.getElem?_modify, List.getElem?_modify]
  cases found : s.scopes[i]? with
  | none => rfl
  | some x =>
    by_cases here : scope = i
    · have own : s.buckets scope = x.values := by
        rw [Store.buckets, Store.scope, here, found]
        rfl
      rw [own] at values
      simp only [if_pos here, Option.map_eq_map, Option.map_some, values]
    · simp only [if_neg here]

theorem revisions_perm (stage : Stage) (phase : Phase) (b : Buckets) {groups groups' : List Group}
    (perm : groups.Perm groups') : (revisions stage phase b groups).Perm (revisions stage phase b groups') :=
  perm.filterMap _

theorem revisions_flatten (stage : Stage) (phase : Phase) (b : Buckets) (parts : List (List Group)) :
    revisions stage phase b parts.flatten = (parts.map (revisions stage phase b)).flatten :=
  List.filterMap_flatten

end Ingest

namespace Concurrent

open Ingest

variable {σ : Type}

/-! ## Accounts -/

/-- What a worker has written and what it will write, if the buckets of its keys are as `before`. -/
def Worker.account (stage : Stage) (phase : Phase) (before : Buckets) (w : Worker) : List Revision :=
  w.progress.revisions ++ (w.ready.toList ++ revisions stage phase before w.todo)

theorem Worker.Turn.account {site : Site} {phase : Phase} {before : Buckets} {s s' : Store} {w w' : Worker}
    (turn : Worker.Turn site phase s w s' w')
    (known : ∀ group ∈ w.todo, (s.buckets site.scope).get? group.1 = before.get? group.1) :
    w'.account site.stage phase before = w.account site.stage phase before := by
  cases turn with
  | rests done => rfl
  | @plans todo group progress r made =>
    rw [known group List.mem_cons_self] at made
    simp only [Worker.account, revisions, List.filterMap_cons, made]
    rfl
  | @skips todo group progress kept =>
    rw [known group List.mem_cons_self] at kept
    simp only [Worker.account, revisions, List.filterMap_cons, kept, Progress.add, Option.toList_none,
      List.append_nil]
  | @writes todo progress r =>
    simp only [Worker.account, Progress.add, Option.toList_some, Option.toList_none, List.append_assoc,
      List.nil_append]

/-- All that a worker has done when it ends without a crash is in its notes. -/
theorem Worker.account_of_isDone {w : Worker} (done : w.isDone = true) (sound : w.crashed = false) (stage : Stage)
    (phase : Phase) (before : Buckets) : w.account stage phase before = w.progress.revisions := by
  rw [isDone, sound, Bool.false_or, Bool.and_eq_true, Option.isNone_iff_eq_none, List.isEmpty_iff] at done
  rw [account, done.1, done.2]
  exact List.append_nil _

/-- A crew to whose workers groups are dealt. -/
def Crew.deal (parts : List (List Group)) : Crew := ⟨true, parts.map fun part => { todo := part }⟩

/-- A crew is at work on groups that were dealt to its workers, and every worker on its own. -/
structure Dealt (site : Site) (phase : Phase) (before : Store) (groups : List Group) (parts : List (List Group))
    (c : Crew) (s : Store) : Prop where
  divided : c.divided = true
  work : AtWork site.stage phase (before.buckets site.scope) groups c (s.buckets site.scope)
  accounts : c.workers.map (Worker.account site.stage phase (before.buckets site.scope)) =
    parts.map (revisions site.stage phase (before.buckets site.scope))
  wrote : Wrote site before c s

namespace Dealt

variable {site : Site} {phase : Phase} {before s s' : Store} {groups : List Group} {parts : List (List Group)}
  {c c' : Crew}

theorem start (site : Site) (phase : Phase) (before : Store) (nodup : (groups.map Prod.fst).Nodup)
    (dealt : parts.flatten.Perm groups) : Dealt site phase before groups parts (.deal parts) before where
  divided := rfl
  work := .ofParts true dealt (fun _ => rfl) nodup
  accounts := by
    rw [Crew.deal, List.map_map]
    rfl
  wrote := by
    refine ⟨[], rfl, ?_⟩
    rw [Crew.written, Crew.deal, List.flatMap_map, List.flatMap_eq_nil_iff.2 fun _ _ => rfl]

theorem length (dealt : Dealt site phase before groups parts c s) : s.scopes.length = before.scopes.length := by
  obtain ⟨rs, rfl, -⟩ := dealt.wrote
  exact length_storeAll _ _ _

theorem call {plan : FaultPlan} {i : Nat} (dealt : Dealt site phase before groups parts c s)
    (nodup : (groups.map Prod.fst).Nodup) (open_ : site.scope < before.scopes.length)
    (spares : plan.Spares site.scope) (call : Crew.Call site phase plan i s c s' c') :
    Dealt site phase before groups parts c' s' := by
  have work := (dealt.work.call nodup (dealt.length ▸ open_) spares call).2
  have wrote := dealt.wrote.call call
  cases call with
  | nobody absent => exact dealt
  | @one _ divided front w w' back place call =>
    refine ⟨dealt.divided, work, ?_, wrote⟩
    have known : ∀ group ∈ w.todo,
        (s.buckets site.scope).get? group.1 = (before.buckets site.scope).get? group.1 := by
      intro group mem
      refine dealt.work.pending group.1 (List.mem_flatMap.2 ⟨w, List.mem_append_right _ List.mem_cons_self, ?_⟩)
      exact List.mem_append_right _ (List.mem_map_of_mem mem)
    have same := (call.turn spares).account known
    rw [← dealt.accounts, List.map_append, List.map_cons, same, ← List.map_cons, ← List.map_append]

/-- When the crew has ended, it has written what was dealt to it. -/
theorem written_eq (dealt : Dealt site phase before groups parts c s) (done : c.isDone = true) :
    c.written = revisions site.stage phase (before.buckets site.scope) parts.flatten := by
  rw [Crew.written, revisions_flatten, ← dealt.accounts, ← List.flatMap_def]
  refine List.flatMap_congr fun w mem => Eq.symm ?_
  exact Worker.account_of_isDone (List.all_eq_true.1 done w mem) (dealt.work.sane w mem).1 _ _ _

/-- All that the crew has written it reports. -/
theorem revisions_joinAll (dealt : Dealt site phase before groups parts c s) :
    (Crew.joinAll c.workers).revisions = c.written := by
  rw [Crew.revisions_joinAll, Crew.written]
  refine List.flatMap_congr fun w mem => ?_
  rw [(dealt.work.sane w mem).1]
  rfl

end Dealt

/-- Where nothing fails, the groups are revised one after the other. -/
theorem run_process_of_never (workers : Nat) (site : Site) (phase : Phase) {groups : List Group}
    (nodup : (groups.map Prod.fst).Nodup) (l : σ) {world : World} (never : world.plan = .never)
    (open_ : site.scope < world.store.scopes.length) :
    ∃ p world', (process workers site phase groups).run l world = (.ok p, l, world') ∧ p.failed = none ∧
      p.revisions = revisions site.stage phase (world.store.buckets site.scope) (order workers groups) ∧
      world'.store = storeAll site.scope p.revisions world.store := by
  have civil : world.plan.Civil := by
    intro n call failing
    rw [never] at failing
    cases failing
  obtain ⟨done, p, world', ran, -, processed⟩ := run_process workers site phase nodup l world civil open_
  have all : done = order workers groups :=
    processed.toDone.eq_of_spares (((order_perm workers groups).map Prod.fst).nodup_iff.2 nodup)
      (never ▸ FaultPlan.never_spares _)
  refine ⟨p, world', ran, processed.failed.2 ⟨rfl, all⟩, ?_, ?_⟩
  · rw [processed.revisions, all]
    rfl
  · rw [processed.store, processed.revisions]
    rfl

/-- However the groups of a phase are dealt to workers, and however the calls of the workers interleave,
they leave the store that one worker leaves and revise the same buckets. -/
theorem Crew.agrees_with_one_worker (site : Site) (phase : Phase) {groups : List Group}
    (nodup : (groups.map Prod.fst).Nodup) {world : World} (never : world.plan = .never)
    (open_ : site.scope < world.store.scopes.length) (sorted : (world.store.buckets site.scope).Sorted) (l : σ) :
    ∃ one alone, (process 1 site phase groups).run l world = (.ok one, l, alone) ∧ one.failed = none ∧
      (∀ workers, ∃ p world', (process workers site phase groups).run l world = (.ok p, l, world') ∧
        p.failed = none ∧ p.revisions.Perm one.revisions ∧ world'.store = alone.store) ∧
      ∀ parts : List (List Group), parts.flatten.Perm groups →
        (∀ schedule, ∃ crew world',
          ((Crew.deal parts).steps site phase schedule).run l world = (.ok crew, l, world') ∧
          (crew.isDone = true → ∃ p, crew.result? = some (.ok p) ∧
            p.failed = none ∧ p.revisions.Perm one.revisions ∧ world'.store = alone.store)) ∧
        ∃ schedule crew world', ((Crew.deal parts).steps site phase schedule).run l world = (.ok crew, l, world') ∧
          crew.isDone = true := by
  obtain ⟨one, alone, ran, clean, revised, store⟩ := run_process_of_never 1 site phase nodup l never open_
  have spares : world.plan.Spares site.scope := never ▸ FaultPlan.never_spares _
  have keys : (one.revisions.map Revision.key).Nodup := by
    rw [revised]
    exact nodup.sublist (keys_revisions_sublist _ _ _ groups)
  refine ⟨one, alone, ran, clean, fun workers => ?divided, fun parts dealt =>
    ⟨fun schedule => ?interleaved, (Crew.deal parts).exists_schedule site phase l world⟩⟩
  case divided =>
    obtain ⟨p, world', ran', clean', revised', store'⟩ :=
      run_process_of_never workers site phase nodup l never open_
    -- The revisions are the same in another order, and as their keys differ the order does not show in the store.
    have same : p.revisions.Perm one.revisions := by
      rw [revised', revised]
      exact revisions_perm _ _ _ (order_perm workers groups)
    refine ⟨p, world', ran', clean', same, ?_⟩
    rw [store', store]
    exact (storeAll_perm same.symm keys sorted).symm
  case interleaved =>
    obtain ⟨crew, world', ran', -, ended⟩ := Crew.run_steps site phase
      (fun ongoing call => ongoing.call nodup open_ spares call) schedule l rfl (Dealt.start site phase _ nodup dealt)
    refine ⟨crew, world', ran', fun done => ?_⟩
    have finished : crew.result? = some (.ok (Crew.joinAll crew.workers)) := by
      rw [Crew.result?, done, ended.divided]
      rfl
    have same : crew.written.Perm one.revisions := by
      rw [ended.written_eq done, revised]
      exact revisions_perm _ _ _ dealt
    obtain ⟨rs, wrote, perm⟩ := ended.wrote
    refine ⟨_, finished, failed_joinAll ended.work.sane, ended.revisions_joinAll ▸ same, ?_⟩
    rw [wrote, store]
    exact (storeAll_perm (perm.trans same).symm keys sorted).symm

/-- Two workers both read before either of them writes. -/
theorem Crew.agrees_with_one_worker_crossing :
    let site : Site := ⟨Stage.root [.brokenDownBy "a" "A"], Store.root⟩
    let group (a : String) : Group := (⟨[.text a]⟩, [⟨[(Field.count, .int 1)]⟩])
    let groups := [group "x", group "y"]
    let crew := Crew.deal (groups.map fun group => [group])
    let run := (crew.steps site .add [1, 0, 0, 1]).run () {}
    ∃ one alone ended world', (process 1 site .add groups).run () {} = (.ok one, (), alone) ∧
      run = (.ok ended, (), world') ∧ ended.isDone = true ∧ world'.store = alone.store ∧
      ∃ p, ended.result? = some (.ok p) ∧ p.revisions.Perm one.revisions := by
  intro site group groups crew run
  obtain ⟨one, alone, ran, -, -, any⟩ := @Crew.agrees_with_one_worker Unit site .add groups (by decide) {} rfl
    Nat.zero_lt_one SortedMap.sorted_empty ()
  obtain ⟨ended, world', ran', agrees⟩ := (any (groups.map fun group => [group]) (List.Perm.refl _)).1 [1, 0, 0, 1]
  have computed : run.1.toOption.map Crew.isDone = some true := by decide +kernel
  rw [show run = (.ok ended, (), world') from ran'] at computed
  have done : ended.isDone = true := Option.some.inj computed
  obtain ⟨p, finished, -, same, store⟩ := agrees done
  exact ⟨one, alone, ended, world', ran, ran', done, store, p, finished, same⟩

end Concurrent

end Rollup
