import Rollup.Proofs.Concurrent.Dealing
import Rollup.Proofs.Ingest.Recovery

/-!
# Workers that crash

Whatever the store does to the calls of a crew, every worker goes about its own groups in their order
(`Worker.Serves`): what it writes is what the phase makes of the buckets as they were, and it leaves out
a bucket only if an access to that bucket fails.  A worker whose access crashes stops there.

A worker hands its notes in when it ends, so the notes of one that crashes are lost with it.  The
stages behind hear of every bucket that the other workers have written (`Crew.survivors_forwarded`),
but not of those that the crashed worker wrote before (`crashed_worker_forgets`).
-/

namespace Rollup

/-- An access to the entry under a key may crash. -/
def FaultPlan.CrashesAt (plan : FaultPlan) (scope : ScopeId) (key : Key) : Prop :=
  plan.FailsAt scope .get (some key) .crash ∨ plan.FailsAt scope .set (some key) .crash

namespace Concurrent

open Ingest

section Lists

variable {α β γ : Type}

theorem forall₂_middle {R : α → β → Prop} {xs : List α} {front back : List β} {y y' : β}
    (all : List.Forall₂ R xs (front ++ y :: back)) (one : ∀ x ∈ xs, R x y → R x y') :
    List.Forall₂ R xs (front ++ y' :: back) := by
  induction front generalizing xs with
  | nil =>
    cases all with
    | cons first rest => exact .cons (one _ List.mem_cons_self first) rest
  | cons z front ih =>
    cases all with
    | cons first rest => exact .cons first (ih rest fun x mem => one x (List.mem_cons_of_mem _ mem))

theorem sublist_flatMap {f : α → List γ} {g : β → List γ} {xs : List α} {ys : List β}
    (all : List.Forall₂ (fun x y => (g y).Sublist (f x)) xs ys) : (ys.flatMap g).Sublist (xs.flatMap f) := by
  induction all with
  | nil => exact List.Sublist.refl _
  | cons first _ ih =>
    rw [List.flatMap_cons, List.flatMap_cons]
    exact first.append ih

theorem exists_of_forall₂ {R : α → β → Prop} {xs : List α} {ys : List β} (all : List.Forall₂ R xs ys) {y : β}
    (mem : y ∈ ys) : ∃ x ∈ xs, R x y := by
  induction all with
  | nil => cases mem
  | @cons x _ _ _ first _ ih =>
    rcases List.mem_cons.1 mem with rfl | mem
    · exact ⟨x, List.mem_cons_self, first⟩
    · obtain ⟨x', member, related⟩ := ih mem
      exact ⟨x', List.mem_cons_of_mem _ member, related⟩

end Lists

/-! ## One worker -/

/-- A worker has gone about the groups of a part, in their order.  `before` are the buckets as they were. -/
structure Worker.Serves (site : Site) (phase : Phase) (plan : FaultPlan) (before : Buckets) (part : List Group)
    (w : Worker) : Prop where
  keys : (w.progress.revisions.map Revision.key ++ w.pending).Sublist (part.map Prod.fst)
  account : (w.account site.stage phase before).Sublist (revisions site.stage phase before part)
  missed : ∀ r ∈ revisions site.stage phase before part, r ∉ w.account site.stage phase before →
    ¬ plan.SparesKey site.scope r.key
  crashed : w.crashed = true → ∃ key ∈ part.map Prod.fst,
    key ∉ w.progress.revisions.map Revision.key ∧ plan.CrashesAt site.scope key

namespace Worker.Serves

variable {site : Site} {phase : Phase} {plan : FaultPlan} {before : Buckets} {part : List Group} {w w' : Worker}

theorem start (site : Site) (phase : Phase) (plan : FaultPlan) (before : Buckets) (part : List Group) :
    Worker.Serves site phase plan before part { todo := part } where
  keys := List.Sublist.refl _
  account := List.Sublist.refl _
  missed r mem left := absurd mem left
  crashed wrong := by cases wrong

/-- A worker gives up its next key when an access to it fails. -/
theorem giveUp (serves : Serves site phase plan before part w) (nodup : (part.map Prod.fst).Nodup) {key : Key}
    {f : Failure Error}
    (failing : plan.FailsAt site.scope .get (some key) f ∨ plan.FailsAt site.scope .set (some key) f)
    {todo : List Group} (next : w.pending = key :: todo.map Prod.fst) {given : List Revision}
    (own : ∀ r ∈ given, r.key = key)
    (planned : w.account site.stage phase before =
      w.progress.revisions ++ (given ++ revisions site.stage phase before todo)) :
    Serves site phase plan before part (receive ⟨todo, none, w.progress, false⟩ (.error f)) := by
  have noted : (receive ⟨todo, none, w.progress, false⟩ (.error f)).progress.revisions = w.progress.revisions := by
    rcases f with e | _ <;> rfl
  have left : (receive ⟨todo, none, w.progress, false⟩ (.error f)).pending = todo.map Prod.fst := by
    rcases f with e | _ <;> rfl
  have account : (receive ⟨todo, none, w.progress, false⟩ (.error f)).account site.stage phase before =
      w.progress.revisions ++ revisions site.stage phase before todo := by
    rcases f with e | _ <;> rfl
  have keys := serves.keys
  rw [next] at keys
  constructor
  case keys =>
    rw [noted, left]
    exact ((List.sublist_cons_self key _).append_left _).trans keys
  case account =>
    rw [account]
    refine List.Sublist.trans ?_ serves.account
    rw [planned]
    exact (List.sublist_append_right given _).append_left _
  case missed =>
    intro r mem out
    -- A revision that is out of account now was so before, or is of the key that is given up, whose access fails.
    by_cases known : r ∈ w.account site.stage phase before
    · rw [planned, List.mem_append, List.mem_append] at known
      rw [account, List.mem_append, not_or] at out
      have given := (known.resolve_left out.1).resolve_right out.2
      rw [own r given]
      exact fun spares => failing.elim (spares f).1 (spares f).2
    · exact serves.missed r mem known
  case crashed =>
    intro crashed
    rcases f with e | _
    · cases crashed
    refine ⟨key, keys.subset (List.mem_append_right _ List.mem_cons_self), fun written => ?_, failing⟩
    rw [noted] at written
    exact (List.nodup_append.1 (nodup.sublist keys)).2.2 key written key List.mem_cons_self rfl

theorem call {s s' : Store} (serves : Serves site phase plan before part w) (nodup : (part.map Prod.fst).Nodup)
    (call : Worker.Call site phase plan s w s' w')
    (known : ∀ group ∈ w.todo, (s.buckets site.scope).get? group.1 = before.get? group.1) :
    Serves site phase plan before part w' := by
  cases call with
  | passes turn =>
    have same := turn.account known
    refine ⟨?_, same ▸ serves.account, same ▸ serves.missed, ?_⟩
    · have keys := serves.keys
      cases turn with
      | rests done => exact keys
      | plans made =>
        rw [Worker.pending, Option.toList_some, List.map_singleton, (revise?_keeps made).1]
        exact keys
      | skips kept =>
        simp only [Progress.add, Option.toList_none, List.append_nil]
        exact ((List.sublist_cons_self _ _).append_left _).trans keys
      | writes r =>
        simp only [Progress.add, Option.toList_some, List.map_append, List.append_assoc]
        exact keys
    · cases turn with
      | rests done => exact serves.crashed
      | plans made | skips kept | writes r =>
        intro crashed
        cases crashed
  | @misreads todo group progress f failing =>
    have own : ∀ r ∈ (revise? site.stage phase group (before.get? group.1)).toList, r.key = group.1 :=
      fun r mem => (revise?_keeps (Option.mem_toList.1 mem)).1
    refine serves.giveUp nodup (.inl failing) rfl own ?_
    rw [Worker.account, ← revisions_singleton, ← revisions_append]
    rfl
  | @miswrites todo r progress f failing =>
    exact serves.giveUp nodup (.inr failing) rfl (fun other mem => congrArg Revision.key (List.mem_singleton.1 mem)) rfl

end Worker.Serves

/-! ## A crew -/

/-- The workers of a crew have gone about the parts that were dealt to them. -/
structure Crew.Serves (site : Site) (phase : Phase) (plan : FaultPlan) (before : Store) (parts : List (List Group))
    (c : Crew) (s : Store) : Prop where
  divided : c.divided = true
  wrote : Wrote site before c s
  workers : List.Forall₂ (Worker.Serves site phase plan (before.buckets site.scope)) parts c.workers

namespace Crew.Serves

variable {site : Site} {phase : Phase} {plan : FaultPlan} {before s s' : Store} {parts : List (List Group)}
  {c c' : Crew}

theorem start (site : Site) (phase : Phase) (plan : FaultPlan) (before : Store) (parts : List (List Group)) :
    Crew.Serves site phase plan before parts (.deal parts) before where
  divided := rfl
  wrote := by
    refine ⟨[], rfl, ?_⟩
    rw [Crew.written, Crew.deal, List.flatMap_map, List.flatMap_eq_nil_iff.2 fun _ _ => rfl]
  workers := by
    rw [Crew.deal, List.forall₂_map_right_iff, List.forall₂_same]
    exact fun part _ => .start site phase plan _ part

/-- The buckets that a worker has still to read are as they were. -/
theorem known (serves : Crew.Serves site phase plan before parts c s) (nodup : (parts.flatten.map Prod.fst).Nodup)
    (open_ : site.scope < before.scopes.length) {w : Worker} (mem : w ∈ c.workers) {group : Group}
    (own : group ∈ w.todo) : (s.buckets site.scope).get? group.1 = (before.buckets site.scope).get? group.1 := by
  obtain ⟨rs, rfl, perm⟩ := serves.wrote
  rw [buckets_storeAll_self rs open_]
  refine get?_applyAll_of_not_mem (fun written => ?_) _
  -- What all workers have written and what they still have to do is about different keys.
  have keys : (c.workers.flatMap fun w => w.progress.revisions.map Revision.key ++ w.pending).Nodup := by
    rw [List.map_flatten, ← List.flatMap_def] at nodup
    exact nodup.sublist (sublist_flatMap (serves.workers.imp fun part w serves => serves.keys))
  have apart := (List.nodup_append.1 ((List.flatMap_append_perm c.workers _ _).nodup_iff.2 keys)).2.2
  refine apart group.1 ?_ group.1 (List.mem_flatMap.2 ⟨w, mem, ?_⟩) rfl
  · rw [← List.map_flatMap]
    exact (perm.map Revision.key).subset written
  · exact List.mem_append_right _ (List.mem_map_of_mem own)

theorem call {i : Nat} (serves : Crew.Serves site phase plan before parts c s)
    (nodup : (parts.flatten.map Prod.fst).Nodup) (open_ : site.scope < before.scopes.length)
    (call : Crew.Call site phase plan i s c s' c') : Crew.Serves site phase plan before parts c' s' := by
  have wrote := serves.wrote.call call
  cases call with
  | nobody absent => exact serves
  | @one _ divided front w w' back place call =>
    refine ⟨serves.divided, wrote, forall₂_middle serves.workers fun part mem own => ?_⟩
    refine own.call (nodup.sublist ?_) call fun group todo =>
      serves.known nodup open_ (List.mem_append_right _ List.mem_cons_self) todo
    exact (List.sublist_flatten_of_mem mem).map Prod.fst

theorem written_sublist (serves : Crew.Serves site phase plan before parts c s) :
    c.written.Sublist (revisions site.stage phase (before.buckets site.scope) parts.flatten) := by
  rw [revisions_flatten, ← List.flatMap_def]
  refine sublist_flatMap (serves.workers.imp fun part w serves => ?_)
  exact (List.sublist_append_left _ _).trans serves.account

end Crew.Serves

/-- What the crashed workers of a crew have written. -/
def Crew.lost (c : Crew) : List Revision :=
  c.workers.flatMap fun w => if w.crashed then w.progress.revisions else []

theorem Crew.written_perm (c : Crew) : c.written.Perm ((joinAll c.workers).revisions ++ c.lost) := by
  rw [Crew.revisions_joinAll, Crew.lost]
  refine List.Perm.symm ((List.flatMap_append_perm _ _ _).trans (List.Perm.of_eq (List.flatMap_congr fun w _ => ?_)))
  cases w.crashed <;> simp

/-! ## What is handed on -/

/-- How a phase ends when it has handed on what it revised. -/
def endPhase (commitBehind : Action Error (List Queues) Unit) (p : Progress) : Action Error (List Queues) Nat :=
  match p.failed with
  | none => pure p.revisions.length
  | some e => do
    settle (δ := Error) commitBehind
    Action.fail (.error e)

/-- The end of a phase hands on what the phase reports. -/
theorem run_finishPhase {behindSites : List Site} (commitBehind : Action Error (List Queues) Unit) (p : Progress)
    (q : Queues) {qs : List Queues} (length : qs.length = behindSites.length) (world : World) :
    ∃ world', world'.store = world.store ∧ (finishPhase behindSites commitBehind p).run (q :: qs) world =
      (endPhase commitBehind p).run (q :: handOn behindSites p.revisions qs) world' := by
  obtain ⟨world', -, store, ran⟩ := run_forward (ε := Error) p.revisions q length world
  refine ⟨world', store, ?_⟩
  rw [finishPhase, Action.run_bind, ran]
  rfl

/-- What has come of a phase in which workers may have crashed: `p` is what it reports. -/
structure Salvaged (site : Site) (phase : Phase) (plan : FaultPlan) (before : Store) (parts : List (List Group))
    (p : Progress) (lost : List Revision) (s : Store) : Prop where
  store : s = storeAll site.scope (p.revisions ++ lost) before
  made : (p.revisions ++ lost).Subperm (revisions site.stage phase (before.buckets site.scope) parts.flatten)
  /-- A worker of which no access crashes revises all of its buckets but those that are refused. -/
  kept : ∀ part ∈ parts, (∀ group ∈ part, ¬ plan.CrashesAt site.scope group.1) →
    ∀ r ∈ revisions site.stage phase (before.buckets site.scope) part,
      plan.SparesKey site.scope r.key → r ∈ p.revisions
  /-- What is not reported was written by a worker that crashed at another of its keys. -/
  lost : ∀ r ∈ lost, p.failed ≠ none ∧ ∃ part ∈ parts,
    r ∈ revisions site.stage phase (before.buckets site.scope) part ∧
      ∃ group ∈ part, group.1 ≠ r.key ∧ plan.CrashesAt site.scope group.1

theorem Crew.Serves.salvaged {site : Site} {phase : Phase} {plan : FaultPlan} {before s : Store}
    {parts : List (List Group)} {c : Crew} (serves : Crew.Serves site phase plan before parts c s)
    (nodup : (parts.flatten.map Prod.fst).Nodup) (sorted : (before.buckets site.scope).Sorted)
    (done : c.isDone = true) :
    c.result? = some (.ok (joinAll c.workers)) ∧
      Salvaged site phase plan before parts (joinAll c.workers) c.lost s := by
  refine ⟨?result, ?store, ?made, ?kept, ?lost⟩
  case result =>
    rw [Crew.result?, done, serves.divided]
    rfl
  case store =>
    obtain ⟨rs, wrote, perm⟩ := serves.wrote
    have keys : (rs.map Revision.key).Nodup := by
      refine (perm.map Revision.key).nodup_iff.2 ?_
      exact (nodup.sublist (keys_revisions_sublist _ _ _ _)).sublist (serves.written_sublist.map Revision.key)
    rw [wrote]
    exact storeAll_perm (perm.trans c.written_perm) keys sorted
  case made => exact c.written_perm.symm.subperm.trans serves.written_sublist.subperm
  case kept =>
    intro part mem steady r made spares
    obtain ⟨w, working, own⟩ := exists_of_forall₂ serves.workers.flip mem
    -- A worker that crashed did so at a key of its part, and none of them crashes.
    have sound : w.crashed = false := by
      by_contra crashed
      obtain ⟨key, listed, -, crashes⟩ := own.crashed (eq_true_of_ne_false crashed)
      obtain ⟨group, member, rfl⟩ := List.mem_map.1 listed
      exact steady group member crashes
    have noted : r ∈ w.account site.stage phase (before.buckets site.scope) := by
      by_contra missed
      exact own.missed r made missed spares
    rw [Worker.account_of_isDone (List.all_eq_true.1 done w working) sound] at noted
    rw [Crew.revisions_joinAll]
    refine List.mem_flatMap.2 ⟨w, working, ?_⟩
    rw [sound]
    exact noted
  case lost =>
    intro r mem
    obtain ⟨w, working, noted⟩ := List.mem_flatMap.1 mem
    cases crashed : w.crashed with
    | false =>
      rw [crashed] at noted
      cases noted
    | true =>
      rw [crashed] at noted
      refine ⟨fun fine => ?_, ?_⟩
      · have own := (failed_joinAll_iff c.workers).1 fine w working
        rw [Worker.result, crashed] at own
        cases own
      · obtain ⟨part, member, own⟩ := exists_of_forall₂ serves.workers working
        obtain ⟨key, listed, other, crashes⟩ := own.crashed crashed
        obtain ⟨group, within, rfl⟩ := List.mem_map.1 listed
        refine ⟨part, member, own.account.subset (List.mem_append_left _ noted), group, within, ?_, crashes⟩
        exact fun same => other (same ▸ List.mem_map_of_mem noted)

/-- Whatever fails or crashes, however groups are dealt to workers and however their calls interleave, the
phase ends for its caller, and what is handed on to the stages behind is all that was written but for what
crashed workers wrote. -/
theorem Crew.survivors_forwarded (site : Site) (behindSites : List Site) (phase : Phase) {parts : List (List Group)}
    (nodup : (parts.flatten.map Prod.fst).Nodup) {world : World} (open_ : site.scope < world.store.scopes.length)
    (sorted : (world.store.buckets site.scope).Sorted) (q : Queues) {qs : List Queues}
    (length : qs.length = behindSites.length) (commitBehind : Action Error (List Queues) Unit) :
    (∀ schedule, ∃ crew world',
      ((Crew.deal parts).steps site phase schedule).run (q :: qs) world = (.ok crew, q :: qs, world') ∧
      (crew.isDone = true → ∃ p lost, crew.result? = some (.ok p) ∧
        Salvaged site phase world.plan world.store parts p lost world'.store ∧
        ∃ world'', world''.store = world'.store ∧
          (finishPhase behindSites commitBehind p).run (q :: qs) world' =
            (endPhase commitBehind p).run (q :: handOn behindSites p.revisions qs) world'')) ∧
      ∃ schedule crew world',
        ((Crew.deal parts).steps site phase schedule).run (q :: qs) world = (.ok crew, q :: qs, world') ∧
        crew.isDone = true := by
  refine ⟨fun schedule => ?_, (Crew.deal parts).exists_schedule site phase _ world⟩
  obtain ⟨crew, world', ran, -, serves⟩ := Crew.run_steps site phase
    (fun ongoing call => ongoing.call nodup open_ call) schedule (q :: qs) rfl
    (Crew.Serves.start site phase world.plan world.store parts)
  refine ⟨crew, world', ran, fun done => ?_⟩
  obtain ⟨finished, salvaged⟩ := serves.salvaged nodup sorted done
  exact ⟨_, _, finished, salvaged, run_finishPhase commitBehind _ q length world'⟩

/-- The plan of a store that crashes when it is asked for a bucket. -/
def crashOn (scope : ScopeId) (key : Key) : FaultPlan := fun _ call =>
  if call.scope = scope ∧ call.kind = .get ∧ call.key? = some key then some .crash else none

/-- The first worker crashes between the calls of the second, which is heard of all the same. -/
theorem Crew.survivors_forwarded_beside_crash :
    let site : Site := ⟨Stage.root [.indexedBy "i"], Store.root⟩
    let chained : Site := ⟨⟨[.dropIndex], [.countDocuments], .buckets true⟩, 1⟩
    let group (n : Int64) : Group := (⟨[.int n, .int 1]⟩, [⟨[(Field.count, .int 1)]⟩])
    let parts := [[group 1, group 2], [group 3]]
    let world : World := { plan := crashOn Store.root (group 2).1 }
    let qs : List Queues := [{}, {}]
    ∃ crew world' p lost world'',
      ((Crew.deal parts).steps site .add [0, 0, 1, 0, 1]).run qs world = (.ok crew, qs, world') ∧
      crew.result? = some (.ok p) ∧ Salvaged site .add world.plan world.store parts p lost world'.store ∧
      p.revisions.map Revision.key = [(group 3).1] ∧
      (finishPhase [chained] (pure ()) p).run qs world' =
        (endPhase (pure ()) p).run ({} :: handOn [chained] p.revisions [{}]) world'' := by
  intro site chained group parts world qs
  obtain ⟨crew, world', ran, ended⟩ := (@Crew.survivors_forwarded site [chained] .add parts (by decide) world
    Nat.zero_lt_one SortedMap.sorted_empty {} [{}] rfl (pure ())).1 [0, 0, 1, 0, 1]
  have computed : (((Crew.deal parts).steps site .add [0, 0, 1, 0, 1]).run qs world).1.toOption.map
      (fun crew => (crew.isDone, crew.result?.map fun r => r.toOption.map fun p => p.revisions.map Revision.key)) =
        some (true, some (some [(group 3).1])) := by decide +kernel
  rw [show ((Crew.deal parts).steps site .add _).run qs world = (.ok crew, qs, world') from ran] at computed
  obtain ⟨done, keys⟩ := Prod.mk.inj (Option.some.inj computed)
  obtain ⟨p, lost, finished, salvaged, world'', -, handed⟩ := ended done
  rw [finished] at keys
  exact ⟨crew, world', p, lost, world'', ran, finished, salvaged, Option.some.inj (Option.some.inj keys), handed⟩

/-- A worker that has written one bucket crashes at another.  The commit fails, the bucket is stored, and the
stage behind neither holds a trace of it nor has anything queued. -/
theorem crashed_worker_forgets :
    let p := Pipeline.ofVerbs [.indexedBy "i"]
    let config : Config := { commitThreshold := 0, commitWorkers := 2 }
    let key (n : Int64) : Key := ⟨[.int n, .int 1]⟩
    let ops : List Ingestor.Op := [.ingest ⟨[("i", .int 1)]⟩, .ingest ⟨[("i", .int 2)]⟩]
    ∃ t : Ingestor.Session, (Ingestor.openAt Store.root p config : Action Error Unit Ingestor).run ()
        { plan := crashOn Store.root (key 2) } = (.ok t.1, (), t.2) ∧
      t.1.sites.map Site.scope = [Store.root, 1] ∧
      (Ingestor.commit.run (t.after ops).1 (t.after ops).2).1 = .error (.error .workerCrashed) ∧
      let after := t.after (ops ++ [.commit])
      (∃ b, after.2.store.get? Store.root (key 1) = some b ∧ b.get? Field.count = some (.int 1)) ∧
        after.2.store.entries 1 = [] ∧ after.1.queues.map Queues.size = [0, 0] := by
  intro p config key ops
  have traced : (Ingestor.Session.start? p config (crashOn Store.root (key 2))).map (fun t =>
      let after := t.after (ops ++ [.commit])
      (t.1.sites.map Site.scope, (Ingestor.commit.run (t.after ops).1 (t.after ops).2).1,
        (after.2.store.get? Store.root (key 1)).bind (·.get? Field.count), after.2.store.entries 1,
        after.1.queues.map Queues.size)) =
      some ([Store.root, 1], .error (.error .workerCrashed), some (.int 1), [], [0, 0]) := by cbv
  obtain ⟨t, opened, same⟩ := Option.map_eq_some_iff.1 traced
  simp only [Prod.mk.injEq] at same
  obtain ⟨scopes, failed, counted, none, drained⟩ := same
  exact ⟨t, Ingestor.run_openAt_of_start? opened, scopes, failed, Option.bind_eq_some_iff.1 counted, none, drained⟩

end Concurrent

end Rollup
