import Rollup.Proofs.Ingest.Processing

/-!
# How commits run

Whatever fails short of a crash, a commit takes the queues and the store on in one of few ways
(`Commits`): every stage works off its queues up to a phase that fails, and hands on what it revised
(`Worked`); the stages behind are committed after it, unless its flush fails.

Stages whose scopes are spared work off all queues, one after the other (`Settled`).  Where accesses
to the first scope may fail, the first stage works off part of its queues and the stages behind still
settle what was handed on to them (`Cycled`).
-/

namespace Rollup.Ingest

/-! ## Handing on -/

/-- The queues behind a stage after it has handed on what it revised. -/
def handOn (behindSites : List Site) (rs : List Revision) (qs : List Queues) : List Queues :=
  match behindSites, qs with
  | next :: _, q :: rest =>
    ⟨q.additions ++ additionsOf next.stage rs, q.retractions ++ retractionsOf next.stage rs⟩ :: rest
  | _, qs => qs

theorem handOn_nil (behindSites : List Site) (qs : List Queues) : handOn behindSites [] qs = qs := by
  cases behindSites <;> cases qs <;> simp [handOn, additionsOf, retractionsOf, forwarded]

theorem length_handOn (behindSites : List Site) (rs : List Revision) (qs : List Queues) :
    (handOn behindSites rs qs).length = qs.length := by
  cases behindSites <;> cases qs <;> rfl

variable {ε : Type}

theorem run_enqueue (stage : Stage) (phase : Phase) (doc : Document) (q : Queues) (w : World) :
    ∃ w', w'.plan = w.plan ∧ w'.store = w.store ∧
      (enqueue stage phase doc : Action ε Queues Unit).run q w =
        (.ok (), (stage.map? doc).elim q (q.push · phase), w') := by
  rw [enqueue]
  cases stage.map? doc with
  | none => exact ⟨w.record .rejected, rfl, rfl, rfl⟩
  | some entry => exact ⟨w.record (.queued (phase = .retract)), rfl, rfl, rfl⟩

theorem run_forwardRevision (next : Stage) (r : Revision) (q : Queues) (w : World) :
    ∃ w', w'.plan = w.plan ∧ w'.store = w.store ∧
      (forwardRevision next r : Action ε Queues Unit).run q w =
        (.ok (), ⟨q.additions ++ additionsOf next [r], q.retractions ++ retractionsOf next [r]⟩, w') := by
  have added : ∀ (q : Queues) (w : World), ∃ w', w'.plan = w.plan ∧ w'.store = w.store ∧
      (enqueue next .add (Stage.tagged r.key r.new) : Action ε Queues Unit).run q w =
        (.ok (), ⟨q.additions ++ additionsOf next [r], q.retractions⟩, w') := by
    intro q w
    obtain ⟨w', plan, store, ran⟩ := run_enqueue (ε := ε) next .add (Stage.tagged r.key r.new) q w
    refine ⟨w', plan, store, ran.trans ?_⟩
    cases made : next.map? (Stage.tagged r.key r.new) <;>
      simp [additionsOf, forwarded, made, Queues.push]
  rw [forwardRevision]
  cases old : r.old with
  | none =>
    obtain ⟨w', plan, store, ran⟩ := added q w
    refine ⟨w', plan, store, ran.trans ?_⟩
    simp [retractionsOf, forwarded, old]
  | some d =>
    obtain ⟨v, plan, store, ran⟩ := run_enqueue (ε := ε) next .retract (Stage.tagged r.key d) q w
    obtain ⟨w', plan', store', ran'⟩ :=
      added ((next.map? (Stage.tagged r.key d)).elim q (q.push · .retract)) v
    refine ⟨w', plan'.trans plan, store'.trans store, ?_⟩
    simp only [Action.run_bind, ran]
    refine ran'.trans ?_
    cases made : next.map? (Stage.tagged r.key d) <;>
      simp [retractionsOf, forwarded, old, made, Queues.push]

theorem forwarded_cons (next : Stage) (pick : Revision → Option Document) (r : Revision) (rest : List Revision) :
    forwarded next pick (r :: rest) = forwarded next pick [r] ++ forwarded next pick rest :=
  List.filterMap_append (l := [r])

theorem run_forwardAll (next : Stage) (rs : List Revision) (q : Queues) (w : World) :
    ∃ w', w'.plan = w.plan ∧ w'.store = w.store ∧
      (forwardAll next rs : Action ε Queues Unit).run q w =
        (.ok (), ⟨q.additions ++ additionsOf next rs, q.retractions ++ retractionsOf next rs⟩, w') := by
  induction rs generalizing q w with
  | nil => exact ⟨w, rfl, rfl, by simp [forwardAll, additionsOf, retractionsOf, forwarded]⟩
  | cons r rest ih =>
    obtain ⟨v, plan, store, ran⟩ := run_forwardRevision (ε := ε) next r q w
    obtain ⟨w', plan', store', ran'⟩ :=
      ih ⟨q.additions ++ additionsOf next [r], q.retractions ++ retractionsOf next [r]⟩ v
    refine ⟨w', plan'.trans plan, store'.trans store, ?_⟩
    rw [forwardAll, Action.run_bind, ran]
    refine ran'.trans ?_
    rw [additionsOf, retractionsOf, additionsOf, retractionsOf, additionsOf, retractionsOf,
      forwarded_cons next _ r rest, forwarded_cons next _ r rest, List.append_assoc, List.append_assoc]

theorem run_forward {behindSites : List Site} (rs : List Revision) (q : Queues) {qs : List Queues}
    (length : qs.length = behindSites.length) (w : World) :
    ∃ w', w'.plan = w.plan ∧ w'.store = w.store ∧
      (forward behindSites rs : Action ε (List Queues) Unit).run (q :: qs) w =
        (.ok (), q :: handOn behindSites rs qs, w') := by
  cases behindSites with
  | nil => exact ⟨w, rfl, rfl, rfl⟩
  | cons next rest =>
    cases qs with
    | nil => cases length
    | cons first others =>
      obtain ⟨w', plan, store, ran⟩ := run_forwardAll (ε := ε) next.stage rs first w
      refine ⟨w'.record (.chainForward (weight rs)), plan, store, ?_⟩
      simp only [forward, Action.run_bind, behind, here, Action.run_zoom, List.tail_cons, List.headD_cons, ran]
      rfl

/-! ## Commits -/

/-- How a stage works off its queues, with what it revises, what stays queued and whether all went well.
A first phase that fails leaves the second queue for another time. -/
inductive Worked (plan : FaultPlan) (workers : Nat) (site : Site) (q : Queues) (s : Store) :
    List Revision → List Revision → Queues → Bool → Prop
  | halted {first : List Group} {retracted : List Revision}
      (part : Done plan site .retract (s.buckets site.scope) (order workers (groupByKey q.retractions)) first)
      (short : first ≠ order workers (groupByKey q.retractions))
      (retract : retracted = revisions site.stage .retract (s.buckets site.scope) first) :
      Worked plan workers site q s retracted [] (q.drop .retract) false
  | ended {first second : List Group} {retracted added : List Revision} {ok : Bool}
      (part : Done plan site .retract (s.buckets site.scope) (order workers (groupByKey q.retractions)) first)
      (whole : first = order workers (groupByKey q.retractions))
      (retract : retracted = revisions site.stage .retract (s.buckets site.scope) first)
      (part' : Done plan site .add (applyAll retracted (s.buckets site.scope))
        (order workers (groupByKey q.additions)) second)
      (whole' : ok = true ↔ second = order workers (groupByKey q.additions))
      (add : added = revisions site.stage .add (applyAll retracted (s.buckets site.scope)) second) :
      Worked plan workers site q s retracted added {} ok

/-- How a chain is committed, and whether all went well. -/
inductive Commits (plan : FaultPlan) (workers : Nat) :
    List Site → List Queues → Store → Bool → List Queues → Store → Prop
  | nil (s : Store) : Commits plan workers [] [] s true [] s
  /-- The stages behind get what was revised and are not committed. -/
  | unflushed {site : Site} {behindSites : List Site} {q q' : Queues} {qs : List Queues} {s : Store}
      {retracted added : List Revision} {f : Failure Error}
      (worked : Worked plan workers site q s retracted added q' true)
      (failing : plan.FailsAt site.scope .commit none f) :
      Commits plan workers (site :: behindSites) (q :: qs) s false
        (q' :: handOn behindSites added (handOn behindSites retracted qs))
        (storeAll site.scope added (storeAll site.scope retracted s))
  | cons {site : Site} {behindSites : List Site} {q q' : Queues} {qs qs' : List Queues} {s s' : Store}
      {retracted added : List Revision} {ok ok' : Bool}
      (worked : Worked plan workers site q s retracted added q' ok)
      (later : Commits plan workers behindSites (handOn behindSites added (handOn behindSites retracted qs))
        (storeAll site.scope added (storeAll site.scope retracted s)) ok' qs' s') :
      Commits plan workers (site :: behindSites) (q :: qs) s (ok && ok') (q' :: qs') s'

/-- The first stage works off its queues; then the flush fails, or the stages behind are committed. -/
theorem Commits.inv {plan : FaultPlan} {workers : Nat} {site : Site} {behindSites : List Site} {q : Queues}
    {qs qs'' : List Queues} {s s' : Store} {ok : Bool}
    (commits : Commits plan workers (site :: behindSites) (q :: qs) s ok qs'' s') :
    ∃ retracted added q' ok₁, Worked plan workers site q s retracted added q' ok₁ ∧
      ((∃ f, plan.FailsAt site.scope .commit none f ∧ ok = false ∧
        qs'' = q' :: handOn behindSites added (handOn behindSites retracted qs) ∧
        s' = storeAll site.scope added (storeAll site.scope retracted s)) ∨
      ∃ ok₂ qs', Commits plan workers behindSites (handOn behindSites added (handOn behindSites retracted qs))
          (storeAll site.scope added (storeAll site.scope retracted s)) ok₂ qs' s' ∧
        ok = (ok₁ && ok₂) ∧ qs'' = q' :: qs') := by
  cases commits with
  | unflushed worked failing => exact ⟨_, _, _, true, worked, .inl ⟨_, failing, rfl, rfl, rfl⟩⟩
  | cons worked later => exact ⟨_, _, _, _, worked, .inr ⟨_, _, later, rfl, rfl⟩⟩

def Answers (r : Except (Failure Error) Unit) : Bool → Prop
  | true => r = .ok ()
  | false => ∃ e, r = .error (.error e)

theorem Answers.ne_crash {r : Except (Failure Error) Unit} {ok : Bool} (answers : Answers r ok) :
    r ≠ .error .crash := by
  cases ok with
  | true =>
    rw [show r = .ok () from answers]
    nofun
  | false =>
    obtain ⟨e, rfl⟩ := answers
    nofun

/-- A chain is committed in every world that does not crash. -/
def Runs (workers : Nat) (sites : List Site) : Prop :=
  ∀ (qs : List Queues) (w : World), qs.length = sites.length → w.plan.Civil →
    (∀ site ∈ sites, site.scope < w.store.scopes.length) →
    ∃ r ok qs' w', (commit workers sites).run qs w = (r, qs', w') ∧ Answers r ok ∧ w'.plan = w.plan ∧
      Commits w.plan workers sites qs w.store ok qs' w'.store

theorem order_groupByKey_nil (workers : Nat) : order workers (groupByKey []) = [] := by
  rw [order]
  split
  · rfl
  · rfl

theorem nodup_order (workers : Nat) (entries : List (Key × Document)) :
    ((order workers (groupByKey entries)).map Prod.fst).Nodup :=
  ((order_perm workers _).map Prod.fst).nodup_iff.2 (nodup_groupByKey entries)

section Phases

variable {workers : Nat} {site : Site} {behindSites : List Site}

theorem run_drain (which : Phase) (q : Queues) (qs : List Queues) (w : World) :
    (here (drain which) : Action ε (List Queues) _).run (q :: qs) w =
      (.ok (q.entries which), q.drop which :: qs, w) := rfl

/-- A phase that succeeds hands on what it revised; one that fails also has it committed. -/
theorem run_phase (runs : Runs workers behindSites) (q : Queues) {qs : List Queues}
    (length : qs.length = behindSites.length) (which : Phase) {w : World} (civil : w.plan.Civil)
    (open_ : ∀ other ∈ site :: behindSites, other.scope < w.store.scopes.length) :
    ∃ done rs v, Done w.plan site which (w.store.buckets site.scope)
        (order workers (groupByKey (q.entries which))) done ∧
      rs = revisions site.stage which (w.store.buckets site.scope) done ∧
      v.plan = w.plan ∧ v.store = storeAll site.scope rs w.store ∧
      ((done = order workers (groupByKey (q.entries which)) ∧
        ∃ n, (phase workers site behindSites (behind (commit workers behindSites)) which).run (q :: qs) w =
          (.ok n, q.drop which :: handOn behindSites rs qs, v)) ∨
      done ≠ order workers (groupByKey (q.entries which)) ∧ ∃ e ok qs' w', w'.plan = w.plan ∧
        (phase workers site behindSites (behind (commit workers behindSites)) which).run (q :: qs) w =
          (.error (.error e), q.drop which :: qs', w') ∧
        Commits w.plan workers behindSites (handOn behindSites rs qs) v.store ok qs' w'.store) := by
  have here_ := open_ site List.mem_cons_self
  by_cases blank : q.entries which = []
  · have none : order workers (groupByKey (q.entries which)) = [] := by rw [blank, order_groupByKey_nil]
    rw [none]
    refine ⟨[], [], w, .nil, rfl, rfl, rfl, .inl ⟨rfl, 0, ?_⟩⟩
    rw [phase, Action.run_bind, run_drain]
    simp only [blank, handOn_nil]
    rfl
  · obtain ⟨done, p, v, ran, plan, processed⟩ := run_process workers site which
      (nodup_groupByKey (q.entries which)) (q.drop which :: qs) w civil here_
    have revised := processed.revisions
    rw [List.nil_append] at revised
    obtain ⟨u, plan', store', ran'⟩ := run_forward (ε := Error) p.revisions (q.drop which) length v
    have start : (phase workers site behindSites (behind (commit workers behindSites)) which).run (q :: qs) w =
        (finishPhase behindSites (behind (commit workers behindSites)) p).run (q.drop which :: qs) v := by
      rw [phase, Action.run_bind, run_drain]
      simp only [List.isEmpty_iff, if_neg blank, Action.run_bind, ran]
    refine ⟨done, p.revisions, u, processed.toDone, revised, plan'.trans plan,
      by rw [store', processed.store, revised], ?_⟩
    have whole := processed.failed
    -- What was revised is handed on in either case; a failure also has it committed.
    rw [start, finishPhase, Action.run_bind, ran']
    cases failed : p.failed with
    | none => exact .inl ⟨(whole.1 failed).2, p.revisions.length, rfl⟩
    | some e =>
      have opened : ∀ other ∈ behindSites, other.scope < u.store.scopes.length := by
        intro other mem
        rw [store', processed.store, length_storeAll]
        exact open_ other (List.mem_cons_of_mem _ mem)
      obtain ⟨r, ok, qs', w', ran'', answers, plan'', commits⟩ := runs (handOn behindSites p.revisions qs) u
        ((length_handOn behindSites p.revisions qs).trans length) (by rw [plan', plan]; exact civil) opened
      rw [plan', plan] at commits plan''
      refine .inr ⟨fun all => ?_, e, ok, qs', w', plan'', ?_, commits⟩
      · rw [whole.2 ⟨rfl, all⟩] at failed
        cases failed
      · have kept := answers.ne_crash
        simp only [Action.run_bind, settle, Action.run_attempt, behind, Action.run_zoom, List.tail_cons, ran'']
        rcases r with (e' | _) | _
        · rfl
        · exact absurd rfl kept
        · rfl

/-- After both phases the stage is flushed and the stages behind are committed, unless the flush fails. -/
theorem run_flush (runs : Runs workers behindSites) {q : Queues} {qs : List Queues}
    (length : qs.length = behindSites.length) {w v : World} (civil : w.plan.Civil)
    (open_ : ∀ other ∈ behindSites, other.scope < w.store.scopes.length) {retracted added : List Revision}
    (worked : Worked w.plan workers site q w.store retracted added {} true) (plan : v.plan = w.plan)
    (store : v.store = storeAll site.scope added (storeAll site.scope retracted w.store)) (n : Nat) :
    ∃ r ok qs' w',
      (do
        Access.commit site.scope
        behind (commit workers behindSites)
        return n : Action Error (List Queues) Nat).run
          ({} :: handOn behindSites added (handOn behindSites retracted qs)) v = (r, qs', w') ∧
      (if ok then ∃ n, r = .ok n else ∃ e, r = .error (.error e)) ∧ w'.plan = w.plan ∧
      Commits w.plan workers (site :: behindSites) (q :: qs) w.store ok qs' w'.store := by
  rw [Access.commit, Action.run_bind]
  -- A flush that fails ends the commit, and the stages behind keep what was handed on.
  rcases run_call .commit site.scope none ({} :: handOn behindSites added (handOn behindSites retracted qs)) v with
    ⟨f, failing, ran⟩ | ⟨-, ran⟩
  · rw [plan] at failing
    have failing : w.plan.FailsAt site.scope .commit none f := ⟨_, _, failing⟩
    obtain ⟨e, rfl⟩ := civil.error_of_failsAt failing
    refine ⟨_, false, _, { v with calls := v.calls + 1 }, by rw [ran], ⟨e, rfl⟩, plan, ?_⟩
    show Commits _ _ _ _ _ _ _ v.store
    rw [store]
    exact .unflushed worked failing
  · have opened : ∀ other ∈ behindSites, other.scope < v.store.scopes.length := by
      rw [store, length_storeAll, length_storeAll]
      exact open_
    obtain ⟨r, ok, qs', w', ran', answers, plan', commits⟩ :=
      runs (handOn behindSites added (handOn behindSites retracted qs)) { v with calls := v.calls + 1 }
        ((length_handOn behindSites added _).trans ((length_handOn behindSites retracted qs).trans length))
        (by rw [plan]; exact civil) opened
    rw [plan] at commits plan'
    simp only [store] at commits
    have through := Commits.cons worked commits
    simp only [ran, Action.run_bind, behind, Action.run_zoom, List.tail_cons, ran']
    cases ok with
    | true =>
      obtain rfl : r = .ok () := answers
      exact ⟨_, true, _, w', rfl, ⟨_, rfl⟩, plan', through⟩
    | false =>
      obtain ⟨e, rfl⟩ := answers
      exact ⟨_, false, _, w', rfl, ⟨e, rfl⟩, plan', through⟩

/-- Both phases, whichever of them fails, with the flush and the stages behind. -/
theorem run_phases (runs : Runs workers behindSites) (q : Queues) {qs : List Queues}
    (length : qs.length = behindSites.length) {w : World} (civil : w.plan.Civil)
    (open_ : ∀ other ∈ site :: behindSites, other.scope < w.store.scopes.length) :
    ∃ r ok qs' w',
      (phases workers site behindSites (behind (commit workers behindSites))).run (q :: qs) w = (r, qs', w') ∧
      (if ok then ∃ n, r = .ok n else ∃ e, r = .error (.error e)) ∧ w'.plan = w.plan ∧
      Commits w.plan workers (site :: behindSites) (q :: qs) w.store ok qs' w'.store := by
  have here_ := open_ site List.mem_cons_self
  obtain ⟨first, rs₁, v₁, part₁, revised₁, plan₁, store₁, ended₁⟩ := run_phase runs q length .retract civil open_
  rw [phases, Action.run_bind]
  rcases ended₁ with ⟨whole₁, n₁, ran₁⟩ | ⟨short, e, ok, qs', w', plan', ran₁, commits⟩
  case inr =>
    rw [store₁] at commits
    have halted : Worked w.plan workers site q w.store rs₁ [] (q.drop .retract) false := .halted part₁ short revised₁
    have stopped := Commits.cons halted (by rw [handOn_nil]; exact commits)
    exact ⟨_, false, _, w', by rw [ran₁], ⟨e, rfl⟩, plan', stopped⟩
  -- The first phase succeeded.
  have open₁ : ∀ other ∈ site :: behindSites, other.scope < v₁.store.scopes.length := by
    rw [store₁, length_storeAll]
    exact open_
  have length₁ := (length_handOn behindSites rs₁ qs).trans length
  obtain ⟨second, rs₂, v₂, part₂, revised₂, plan₂, store₂, ended₂⟩ :=
    run_phase runs (q.drop .retract) length₁ .add (plan₁ ▸ civil) open₁
  rw [store₁, buckets_storeAll_self rs₁ here_] at part₂ revised₂
  rw [store₁] at store₂
  rw [plan₁] at part₂ plan₂ ended₂
  simp only [ran₁]
  rw [Action.run_bind]
  rcases ended₂ with ⟨whole₂, n₂, ran₂⟩ | ⟨short, e, ok, qs', w', plan', ran₂, commits⟩
  case inr =>
    rw [store₂] at commits
    have ended : Worked w.plan workers site q w.store rs₁ rs₂ {} false :=
      .ended part₁ whole₁ revised₁ part₂ ⟨fun wrong => (by cases wrong), fun all => absurd all short⟩ revised₂
    have stopped := Commits.cons ended commits
    exact ⟨_, false, _, w', by rw [ran₂]; rfl, ⟨e, rfl⟩, plan', stopped⟩
  -- Both did.
  have worked : Worked w.plan workers site q w.store rs₁ rs₂ {} true :=
    .ended part₁ whole₁ revised₁ part₂ ⟨fun _ => whole₂, fun _ => rfl⟩ revised₂
  rw [ran₂]
  exact run_flush runs length civil (fun other mem => open_ other (List.mem_cons_of_mem _ mem)) worked plan₂ store₂
    (n₁ + n₂)

end Phases

/-- Whatever fails short of a crash, a chain is committed in one of the ways that there are. -/
theorem run_commit (workers : Nat) (sites : List Site) : Runs workers sites := by
  induction sites with
  | nil =>
    intro qs w length _ _
    obtain rfl := List.eq_nil_of_length_eq_zero length
    exact ⟨_, true, [], w, rfl, rfl, rfl, .nil _⟩
  | cons site behindSites ih =>
    intro qs w length civil open_
    cases qs with
    | nil => cases length
    | cons q qs =>
      obtain ⟨r, ok, qs', w', ran, ended, plan, commits⟩ :=
        @run_phases _ site _ ih q _ (Nat.succ.inj length) (w.record .commitStart) civil open_
      have start : (commit workers (site :: behindSites)).run (q :: qs) w = (finishCycle r).run qs' w' := by
        simp only [commit, Action.run_bind, Action.run_record, Action.run_attempt, ran]
      cases ok with
      | true =>
        obtain ⟨n, rfl⟩ := ended
        exact ⟨_, true, _, _, start, rfl, plan, commits⟩
      | false =>
        obtain ⟨e, rfl⟩ := ended
        exact ⟨_, false, _, _, start, ⟨e, rfl⟩, plan, commits⟩

/-! ## Settled chains -/

/-- All queues of a chain were worked off, and what was revised was handed on. -/
inductive Settled : List Site → List Queues → Store → List Queues → Store → Prop
  | nil (s : Store) : Settled [] [] s [] s
  | cons {site : Site} {behindSites : List Site} {q : Queues} {qs qs' : List Queues} {s s' : Store}
      {first second : List Group} (whole_first : first.Perm (groupByKey q.retractions))
      (whole_second : second.Perm (groupByKey q.additions)) {retracted added : List Revision}
      (retract : retracted = revisions site.stage .retract (s.buckets site.scope) first)
      (add : added = revisions site.stage .add (applyAll retracted (s.buckets site.scope)) second)
      (settled : Settled behindSites (handOn behindSites added (handOn behindSites retracted qs))
        (storeAll site.scope added (storeAll site.scope retracted s)) qs' s') :
      Settled (site :: behindSites) (q :: qs) s ({} :: qs') s'

theorem Settled.inv {site : Site} {behindSites : List Site} {q : Queues} {qs qs'' : List Queues} {s s' : Store}
    (settled : Settled (site :: behindSites) (q :: qs) s qs'' s') :
    ∃ first second retracted added qs', first.Perm (groupByKey q.retractions) ∧ second.Perm (groupByKey q.additions) ∧
      retracted = revisions site.stage .retract (s.buckets site.scope) first ∧
      added = revisions site.stage .add (applyAll retracted (s.buckets site.scope)) second ∧ qs'' = {} :: qs' ∧
      Settled behindSites (handOn behindSites added (handOn behindSites retracted qs))
        (storeAll site.scope added (storeAll site.scope retracted s)) qs' s' := by
  cases settled with
  | cons whole_first whole_second retract add settled =>
    exact ⟨_, _, _, _, _, whole_first, whole_second, retract, add, rfl, settled⟩

/-- The first stage worked off part of its queues, and the stages behind settled what they got. -/
structure Cycled (site : Site) (behindSites : List Site) (q : Queues) (qs : List Queues) (s : Store)
    (first second : List Group) (retracted added : List Revision) (q' : Queues) (qs' : List Queues)
    (s' : Store) : Prop where
  first_part : first.Subperm (groupByKey q.retractions)
  second_part : second.Subperm (groupByKey q.additions)
  retract : retracted = revisions site.stage .retract (s.buckets site.scope) first
  add : added = revisions site.stage .add (applyAll retracted (s.buckets site.scope)) second
  settled : Settled behindSites (handOn behindSites added (handOn behindSites retracted qs))
    (storeAll site.scope added (storeAll site.scope retracted s)) qs' s'
  retractions_drained : q'.retractions = []
  additions_drained : q'.additions = [] ∨ second = [] ∧ q'.additions = q.additions

/-- A world in which a chain can be committed without a failure. -/
structure Ready (sites : List Site) (w : World) : Prop where
  mild : w.plan.Mild
  spared : ∀ site ∈ sites, w.plan.Spares site.scope
  open_ : ∀ site ∈ sites, site.scope < w.store.scopes.length

theorem Ready.of_le {sites : List Site} {w w' : World} (ready : Ready sites w) (plan : w'.plan = w.plan)
    (length : w.store.scopes.length ≤ w'.store.scopes.length) : Ready sites w' where
  mild := plan ▸ ready.mild
  spared := plan ▸ ready.spared
  open_ site mem := Nat.lt_of_lt_of_le (ready.open_ site mem) length

theorem Ready.of_eq {sites : List Site} {w w' : World} (ready : Ready sites w) (plan : w'.plan = w.plan)
    (length : w'.store.scopes.length = w.store.scopes.length) : Ready sites w' :=
  ready.of_le plan length.ge

def Settles (workers : Nat) (sites : List Site) : Prop :=
  ∀ (qs : List Queues) (w : World), qs.length = sites.length → Ready sites w →
    ∃ qs' w', (commit workers sites).run qs w = (.ok (), qs', w') ∧ w'.plan = w.plan ∧
      Settled sites qs w.store qs' w'.store

section Spared

variable {plan : FaultPlan} {workers : Nat} {site : Site} {behindSites sites : List Site} {q q' : Queues}
  {qs qs' : List Queues} {s s' : Store} {retracted added : List Revision} {ok : Bool}

theorem Worked.whole (worked : Worked plan workers site q s retracted added q' true) :
    ∃ first second, first.Perm (groupByKey q.retractions) ∧ second.Perm (groupByKey q.additions) ∧
      retracted = revisions site.stage .retract (s.buckets site.scope) first ∧
      added = revisions site.stage .add (applyAll retracted (s.buckets site.scope)) second ∧ q' = {} := by
  cases worked with
  | ended part whole retract part' whole' add =>
    have all := whole'.1 rfl
    exact ⟨_, _, whole ▸ order_perm workers _, all ▸ order_perm workers _, retract, add, rfl⟩

theorem Worked.ok_of_spares (worked : Worked plan workers site q s retracted added q' ok)
    (spares : plan.Spares site.scope) : ok = true := by
  cases worked with
  | halted part short => exact absurd (part.eq_of_spares (nodup_order workers _) spares) short
  | ended part whole retract part' whole' add =>
    exact whole'.2 (part'.eq_of_spares (nodup_order workers _) spares)

theorem Commits.settled (commits : Commits plan workers sites qs s true qs' s') : Settled sites qs s qs' s' := by
  generalize all : true = ok at commits
  induction commits with
  | nil s => exact .nil s
  | unflushed => cases all
  | cons worked later ih =>
    obtain ⟨rfl, rfl⟩ := Bool.and_eq_true_iff.1 all.symm
    obtain ⟨first, second, whole, whole', retract, add, rfl⟩ := worked.whole
    exact .cons whole whole' retract add (ih rfl)

theorem Commits.ok_of_spares (commits : Commits plan workers sites qs s ok qs' s')
    (flushes : ∀ site ∈ sites, ∀ f, ¬ plan.FailsAt site.scope .commit none f)
    (spared : ∀ site ∈ sites, plan.Spares site.scope) : ok = true := by
  induction commits with
  | nil s => rfl
  | unflushed worked failing => exact absurd failing (flushes _ List.mem_cons_self _)
  | cons worked later ih =>
    obtain rfl := worked.ok_of_spares (spared _ List.mem_cons_self)
    exact ih (fun site mem => flushes site (List.mem_cons_of_mem _ mem))
      fun site mem => spared site (List.mem_cons_of_mem _ mem)

theorem Settled.drained (settled : Settled sites qs s qs' s') : ∀ q ∈ qs', q = {} := by
  induction settled with
  | nil => nofun
  | cons whole_first whole_second retract add settled ih =>
    intro q mem
    rcases List.mem_cons.1 mem with rfl | mem
    · rfl
    · exact ih q mem

theorem settles (workers : Nat) (sites : List Site) : Settles workers sites := by
  intro qs w length ready
  obtain ⟨r, ok, qs', w', ran, answers, plan, commits⟩ :=
    run_commit workers sites qs w length ready.mild.civil ready.open_
  obtain rfl := commits.ok_of_spares (fun _ _ _ => ready.mild.flushes) ready.spared
  obtain rfl : r = .ok () := answers
  exact ⟨qs', w', ran, plan, commits.settled⟩

theorem run_commitBehind (settles : Settles workers behindSites) (q : Queues) {qs : List Queues}
    (length : qs.length = behindSites.length) {w : World} (ready : Ready behindSites w) :
    ∃ qs' w', (behind (commit workers behindSites)).run (q :: qs) w = (.ok (), q :: qs', w') ∧
      w'.plan = w.plan ∧ Settled behindSites qs w.store qs' w'.store := by
  obtain ⟨qs', w', ran, plan, settled⟩ := settles qs w length ready
  refine ⟨qs', w', ?_, plan, settled⟩
  rw [behind, Action.run_zoom, List.tail_cons, ran]
  rfl

theorem run_accessCommit {w : World} (mild : w.plan.Mild) (scope : ScopeId) (qs : List Queues) :
    (Access.commit scope : Action Error (List Queues) Unit).run qs w =
      (.ok (), qs, { w with calls := w.calls + 1 }) := by
  rcases run_call .commit scope none qs w with ⟨f, failing, -⟩ | ⟨-, ran⟩
  · exact absurd ⟨_, _, failing⟩ mild.flushes
  · exact ran

theorem Worked.part (worked : Worked plan workers site q s retracted added q' ok) :
    ∃ first second, first.Subperm (groupByKey q.retractions) ∧ second.Subperm (groupByKey q.additions) ∧
      retracted = revisions site.stage .retract (s.buckets site.scope) first ∧
      added = revisions site.stage .add (applyAll retracted (s.buckets site.scope)) second ∧
      q'.retractions = [] ∧ (q'.additions = [] ∨ second = [] ∧ q'.additions = q.additions) := by
  cases worked with
  | halted part short retract =>
    exact ⟨_, [], part.part.subperm.trans (order_perm workers _).subperm, List.nil_subperm, retract, rfl, rfl,
      .inr ⟨rfl, rfl⟩⟩
  | ended part whole retract part' whole' add =>
    exact ⟨_, _, part.part.subperm.trans (order_perm workers _).subperm,
      part'.part.subperm.trans (order_perm workers _).subperm, retract, add, rfl, .inl rfl⟩

/-- A commit of a stage whose accesses may fail, with spared stages behind it. -/
theorem run_commit_cons (q : Queues) {qs : List Queues}
    (length : qs.length = behindSites.length) {w : World} (ready : Ready behindSites w)
    (open_ : site.scope < w.store.scopes.length) :
    ∃ r first second retracted added q' qs' w',
      (commit workers (site :: behindSites)).run (q :: qs) w = (r, q' :: qs', w') ∧ w'.plan = w.plan ∧
      Cycled site behindSites q qs w.store first second retracted added q' qs' w'.store ∧
      (r = .ok () ∨ ∃ e, r = .error (.error e)) ∧
      (w.plan.Spares site.scope → r = .ok () ∧ q' = {} ∧
        first.Perm (groupByKey q.retractions) ∧ second.Perm (groupByKey q.additions)) := by
  have opened : ∀ other ∈ site :: behindSites, other.scope < w.store.scopes.length := by
    intro other mem
    rcases List.mem_cons.1 mem with rfl | mem
    · exact open_
    · exact ready.open_ other mem
  obtain ⟨r, ok, qs'', w', ran, answers, plan, commits⟩ :=
    run_commit workers (site :: behindSites) (q :: qs) w (congrArg (· + 1) length) ready.mild.civil opened
  obtain ⟨retracted, added, q', ok₁, worked, ⟨f, failing, -⟩ | ⟨ok₂, qs', later, rfl, rfl⟩⟩ := commits.inv
  · exact absurd failing ready.mild.flushes
  obtain rfl := later.ok_of_spares (fun _ _ _ => ready.mild.flushes) ready.spared
  have settled := later.settled
  rw [Bool.and_true] at answers
  have ended : r = .ok () ∨ ∃ e, r = .error (.error e) := by
    cases ok₁ with
    | true => exact .inl answers
    | false => exact .inr answers
  by_cases spares : w.plan.Spares site.scope
  · obtain rfl := worked.ok_of_spares spares
    obtain ⟨first, second, whole, whole', retract, add, rfl⟩ := worked.whole
    exact ⟨r, first, second, retracted, added, {}, qs', w', ran, plan,
      ⟨whole.subperm, whole'.subperm, retract, add, settled, rfl, .inl rfl⟩, ended,
      fun _ => ⟨answers, rfl, whole, whole'⟩⟩
  · obtain ⟨first, second, part, part', retract, add, drained, drained'⟩ := worked.part
    exact ⟨r, first, second, retracted, added, q', qs', w', ran, plan,
      ⟨part, part', retract, add, settled, drained, drained'⟩, ended, fun all => absurd all spares⟩

end Spared

end Rollup.Ingest
