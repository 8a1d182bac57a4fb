import Rollup.Proofs.Concurrent.Background
import Rollup.Proofs.Concurrent.Coverage

/-!
# Triggers of background commits

A call that finds the queues full starts a background commit unless one is pending, and a background
commit stays pending until its last step.  So nobody may be left who comes upon the entries of a call
that finds one pending.

As long as that has not happened, full queues are tended (`Tended`): somebody is about to find them
full, or a background commit is still ahead of what is queued.  It has happened where the pending commit
had gone past a queue that holds entries again (`Floor.Misses`), and nowhere else
(`full_only_if_missed`).
-/

namespace Rollup.Concurrent

open Ingest

/-! ## Ahead and past -/

/-- A background commit that will still come upon everything that is queued. -/
def Thread.Ahead (q : Queues) : Thread → Prop
  | .arriving background | .waiting background _ | .rechecking background => background = true
  | .leading background cycle => background = true ∧ ∀ phase, cycle.Past phase → q.entries phase = []
  | .pushing _ _ | .scheduling _ | .clearing | .ended _ => False

/-- A background commit that has drained a queue in which there are entries again, or has nothing left to
do but to clear its mark. -/
def Thread.Passes (q : Queues) : Thread → Prop
  | .leading background cycle => background = true ∧ ∃ phase, cycle.Past phase ∧ q.entries phase ≠ []
  | .clearing => True
  | _ => False

theorem Thread.Background.ahead_or_passes {t : Thread} (alive : t.Background) (q : Queues) :
    t.Ahead q ∨ t.Passes q := by
  cases t with
  | arriving _ | waiting _ _ | rechecking _ => exact .inl alive
  | leading background cycle =>
    by_cases drained : ∀ phase, cycle.Past phase → q.entries phase = []
    · exact .inl ⟨alive, drained⟩
    · simp only [not_forall] at drained
      obtain ⟨phase, past, filled⟩ := drained
      exact .inr ⟨alive, phase, past, filled⟩
  | clearing => exact .inr trivial
  | pushing _ _ | scheduling _ | ended _ => exact alive.elim

theorem Thread.Ahead.background {q : Queues} {t : Thread} (ahead : t.Ahead q) : t.Background := by
  cases t with
  | arriving _ | waiting _ _ | rechecking _ => exact ahead
  | leading _ _ => exact ahead.1
  | pushing _ _ | scheduling _ | clearing | ended _ => exact ahead.elim

/-- Draining does not let a background commit fall behind. -/
theorem Thread.Ahead.mono {q q' : Queues} {t : Thread} (ahead : t.Ahead q)
    (less : ∀ phase, q.entries phase = [] → q'.entries phase = []) : t.Ahead q' := by
  cases t with
  | arriving _ | waiting _ _ | rechecking _ => exact ahead
  | leading _ _ => exact ⟨ahead.1, fun phase past => less phase (ahead.2 phase past)⟩
  | pushing _ _ | scheduling _ | clearing | ended _ => exact ahead.elim

/-- Somebody attends to full queues. -/
inductive Tended (n : Nat) (f : Floor) : Prop
  | few (few : f.ingestor.queued < n)
  /-- A call is about to find the queues full. -/
  | asks {k m : Nat} (found : f.threads[k]? = some (.scheduling m)) (full : n ≤ m)
  | ahead {k : Nat} {t : Thread} (found : f.threads[k]? = some t) (ahead : t.Ahead f.rootQueues)

/-- The call of a thread is about to find the queues full and to start no commit, because one is pending,
which has gone past entries that are queued. -/
structure Floor.Misses (n : Nat) (f : Floor) (i : Nat) : Prop where
  full : ∃ m, n ≤ m ∧ f.threads[i]? = some (.scheduling m)
  pending : f.ingestor.backgroundPending = true
  passed : ∃ (k : Nat) (t : Thread), f.threads[k]? = some t ∧ t.Passes f.rootQueues

/-- A background commit is under way where one is marked, and no cycle has failed. -/
structure Watched (config : Config) (f : Floor) : Prop where
  configured : f.ingestor.config = config
  marked : f.ingestor.backgroundPending = true →
    ∃ (k : Nat) (t : Thread), f.threads[k]? = some t ∧ t.Background
  last : f.gate.last.getD (.ok ()) = .ok ()

/-! ## Steps -/

section Steps

variable {root : Site} {behindSites : List Site} {base : Buckets} {leader? : Option (Nat × Cycle)} {config : Config}
  {n i worker : Nat} {j : Journal} {f g : Floor} {t u : Thread}

theorem Floor.queued_eq_zero (none : ∀ phase, f.rootQueues.entries phase = []) : f.ingestor.queued = 0 := by
  have additions : f.rootQueues.additions = [] := none .add
  have retractions : f.rootQueues.retractions = [] := none .retract
  show f.rootQueues.size = 0
  rw [Queues.size, additions, retractions]
  rfl

theorem Floor.getElem?_spawn_self (f : Floor) (t : Thread) :
    (f.spawn t).threads[f.threads.length]? = some t := by
  rw [spawn, List.getElem?_concat_length]

/-- A step that lets a thread go on and marks nothing. -/
theorem Watched.moved (watched : Watched config f) (stepped : f.step? i worker = some g)
    (found : f.threads[i]? = some t) (placed : g.threads[i]? = some u) (still : t.Background → u.Background)
    (same : g.ingestor.config = f.ingestor.config)
    (pending : g.ingestor.backgroundPending = f.ingestor.backgroundPending)
    (last : g.gate.last.getD (.ok ()) = .ok ()) : Watched config g where
  configured := same.trans watched.configured
  marked mark := by
    obtain ⟨k, t', found', alive⟩ := watched.marked (pending ▸ mark)
    by_cases own : k = i
    · subst own
      obtain rfl : t = t' := Option.some.inj (found.symm.trans found')
      exact ⟨k, u, placed, still alive⟩
    · exact ⟨k, t', Floor.getElem?_step?_of_ne stepped found' own, alive⟩
  last := last

/-- A step that queues nothing leaves full queues tended, if the thread that goes on was not about to find
them full, and does not fall behind if it was ahead of what is queued. -/
theorem Tended.moved (tended : Tended n f) (stepped : f.step? i worker = some g) (found : f.threads[i]? = some t)
    (quiet : ∀ m, t = .scheduling m → m < n) (shrinks : g.ingestor.queued ≤ f.ingestor.queued)
    (less : ∀ phase, f.rootQueues.entries phase = [] → g.rootQueues.entries phase = [])
    (own : t.Ahead f.rootQueues → Tended n g) : Tended n g := by
  cases tended with
  | few few => exact .few (Nat.lt_of_le_of_lt shrinks few)
  | @asks k m asking full =>
    have other : k ≠ i := by
      rintro rfl
      exact Nat.not_lt.2 full (quiet m (Option.some.inj (found.symm.trans asking)))
    exact .asks (Floor.getElem?_step?_of_ne stepped asking other) full
  | @ahead k t' found' ahead =>
    by_cases same : k = i
    · subst same
      obtain rfl : t = t' := Option.some.inj (found.symm.trans found')
      exact own ahead
    · exact .ahead (Floor.getElem?_step?_of_ne stepped found' same) (ahead.mono less)

/-- Queueing a document tells how many entries are queued then. -/
theorem Floor.push_tells (manned : Manned root behindSites base leader? j f) (phase : Phase) (doc : Document) :
    (f.push phase doc).1 = .ended (.ok ()) ∧ (f.push phase doc).2.rootQueues = f.rootQueues ∨
      (f.push phase doc).1 = .scheduling (f.push phase doc).2.ingestor.queued := by
  obtain ⟨q, qs, queues⟩ := List.exists_cons_of_length_eq_add_one manned.queues
  obtain ⟨ingestor, w', rfl, -, -, ran⟩ :=
    Ingestor.run_enqueueRoot (ε := Error) manned.sites queues phase doc f.world
  rw [push, ran]
  cases root.stage.map? doc with
  | none => exact .inl ⟨rfl, by rw [rootQueues, rootQueues, queues]; rfl⟩
  | some entry => exact .inr rfl

theorem Floor.push_same (manned : Manned root behindSites base leader? j f) (phase : Phase) (doc : Document) :
    (f.push phase doc).2.threads = f.threads ∧ (f.push phase doc).2.gate = f.gate ∧
      (f.push phase doc).2.ingestor.config = f.ingestor.config ∧
      (f.push phase doc).2.ingestor.backgroundPending = f.ingestor.backgroundPending := by
  obtain ⟨q, qs, queues⟩ := List.exists_cons_of_length_eq_add_one manned.queues
  obtain ⟨_, _, -, -, pushed⟩ := Floor.push_eq manned.sites queues phase doc
  rw [pushed]
  exact ⟨rfl, rfl, rfl, rfl⟩

theorem Cycle.size_left (cycle : Cycle) (q : Queues) : (cycle.left q).size ≤ q.size := by
  cases cycle with
  | draining phase touched => cases phase <;> simp [left, Queues.drop, Queues.size]
  | revising _ _ _ | flushing _ | ending _ => exact Nat.le_refl _

/-- A step of a leader drains a queue at most. -/
theorem Floor.cycleStep_same (manned : Manned root behindSites base leader? j f) {background : Bool} {cycle : Cycle}
    (found : f.threads[i]? = some (.leading background cycle)) (worker : Nat) :
    (f.cycleStep worker cycle).2.threads = f.threads ∧ (f.cycleStep worker cycle).2.gate = f.gate ∧
      (f.cycleStep worker cycle).2.ingestor.config = f.ingestor.config ∧
      (f.cycleStep worker cycle).2.ingestor.backgroundPending = f.ingestor.backgroundPending ∧
      (f.cycleStep worker cycle).2.rootQueues = cycle.left f.rootQueues := by
  obtain ⟨cycle', qs', w', moved, -⟩ := manned.turn found worker
  rw [moved]
  exact ⟨rfl, rfl, rfl, rfl, rfl⟩

/-- Every step keeps a background commit under way where one is marked. -/
theorem Watched.step (watched : Watched config f) (manned : Manned root behindSites base leader? j f)
    (stepped : f.step? i worker = some g) : Watched config g := by
  obtain ⟨t, found, moves⟩ := Floor.moves_of_step? stepped
  have placed (h : Floor) (u : Thread) (kept : h.threads = f.threads) := Floor.getElem?_put_self found kept u
  -- A step replaces one thread: the commit that is under way is another one, or this one and not ended yet.
  cases moves with
  | push phase doc =>
    obtain ⟨threads, gate, same, pending⟩ := Floor.push_same manned phase doc
    exact watched.moved stepped found (placed _ _ threads) False.elim same pending (gate ▸ watched.last)
  | schedule queued =>
    rw [Floor.schedule] at stepped ⊢
    split
    · refine ⟨watched.configured, fun _ => ?_, watched.last⟩
      exact ⟨_, .arriving true, Floor.getElem?_spawn_self _ _, rfl⟩
    · next idle =>
      rw [if_neg idle] at stepped
      exact watched.moved stepped found (placed f _ rfl) False.elim rfl rfl watched.last
  | arrive background =>
    cases running : f.gate.running with
    | true =>
      rw [Floor.arrive_of_running running] at stepped ⊢
      exact watched.moved stepped found (placed f _ rfl) id rfl rfl watched.last
    | false =>
      rw [Floor.arrive_of_free running] at stepped ⊢
      exact watched.moved stepped found (placed _ _ rfl) id rfl rfl watched.last
  | wake background told =>
    obtain ⟨-, rfl⟩ := Gate.told_of_last watched.last told
    exact watched.moved stepped found (placed f _ rfl) id rfl rfl watched.last
  | stop background _ =>
    refine watched.moved stepped found (placed f _ rfl) ?_ rfl rfl watched.last
    rintro rfl
    exact trivial
  | again background _ => exact watched.moved stepped found (placed f _ rfl) id rfl rfl watched.last
  | lead background goes =>
    obtain ⟨threads, gate, same, pending, -⟩ := Floor.cycleStep_same manned found worker
    exact watched.moved stepped found (placed _ _ threads) id same pending (gate ▸ watched.last)
  | land background ended =>
    obtain ⟨⟨count, rfl⟩, -⟩ := manned.land found
    refine watched.moved stepped found (placed _ _ rfl) ?_ rfl rfl rfl
    rintro rfl
    exact trivial
  | clear => exact ⟨watched.configured, fun mark => Bool.noConfusion mark, watched.last⟩

/-- A call that is told how many entries are queued starts a commit, or tending goes on without one, or
nobody is left who comes upon them. -/
theorem Tended.schedule (tended : Tended n f) (watched : Watched config f) (threshold : config.commitThreshold = n)
    (auto : 0 < n) {queued : Nat} (found : f.threads[i]? = some (.scheduling queued))
    (stepped : f.step? i worker = some ((f.put i (.ended (.ok ()))).schedule queued)) :
    Tended n ((f.put i (.ended (.ok ()))).schedule queued) ∨ f.Misses n i := by
  have due : (f.put i (.ended (.ok ()))).ingestor.isDue queued =
      (decide (n ≤ queued) && !f.ingestor.backgroundPending) := by
    show f.ingestor.isDue queued = _
    rw [Ingestor.isDue, watched.configured, threshold, Config.autoCommitDisabled, threshold]
    simp [Nat.ne_of_gt auto]
  rw [Floor.schedule, due] at stepped ⊢
  rcases Nat.lt_or_ge queued n with less | full
  · simp only [Nat.not_le.2 less, decide_false, Bool.false_and, Bool.false_eq_true, if_false] at stepped ⊢
    refine .inl (tended.moved stepped found (fun m same => ?_) (Nat.le_refl _) (fun _ => id) False.elim)
    cases same
    exact less
  · cases mark : f.ingestor.backgroundPending with
    | false =>
      simp only [full, decide_true, Bool.not_false, Bool.and_self, if_true]
      exact .inl (.ahead (Floor.getElem?_spawn_self _ (.arriving true)) rfl)
    | true =>
      simp only [full, mark, decide_true, Bool.not_true, Bool.and_false, Bool.false_eq_true, if_false] at stepped ⊢
      obtain ⟨k, t, found', alive⟩ := watched.marked mark
      rcases alive.ahead_or_passes f.rootQueues with ahead | passes
      · have other : k ≠ i := by
          rintro rfl
          obtain rfl : Thread.scheduling queued = t := Option.some.inj (found.symm.trans found')
          exact ahead
        exact .inl (.ahead (Floor.getElem?_step?_of_ne stepped found' other) ahead)
      · exact .inr ⟨⟨queued, full, found⟩, mark, k, t, found', passes⟩

/-- A call that has queued a document is about to find the queues full, if they are. -/
theorem Tended.push (tended : Tended n f) (manned : Manned root behindSites base leader? j f) {phase : Phase}
    {doc : Document} (found : f.threads[i]? = some (.pushing phase doc))
    (stepped : f.step? i worker = some ((f.push phase doc).2.put i (f.push phase doc).1)) :
    Tended n ((f.push phase doc).2.put i (f.push phase doc).1) := by
  obtain ⟨threads, -⟩ := Floor.push_same manned phase doc
  rcases Floor.push_tells manned phase doc with ⟨-, same⟩ | told
  · refine tended.moved stepped found (fun m same => by cases same) ?_ (fun which none => ?_) False.elim
    · exact Nat.le_of_eq (congrArg Queues.size same)
    · exact (congrArg (·.entries which) same).trans none
  · rcases Nat.lt_or_ge (f.push phase doc).2.ingestor.queued n with less | full
    · exact .few less
    · refine .asks (k := i) ?_ full
      rw [told]
      exact Floor.getElem?_put_self found threads _

/-- A leader that is ahead of what is queued drains a queue before it goes past it. -/
theorem Tended.lead (tended : Tended n f) (manned : Manned root behindSites base leader? j f) {background : Bool}
    {cycle : Cycle} (found : f.threads[i]? = some (.leading background cycle))
    (goes : ∀ ended, cycle ≠ .ending ended)
    (stepped : f.step? i worker =
      some ((f.cycleStep worker cycle).2.put i (.leading background (f.cycleStep worker cycle).1))) :
    Tended n ((f.cycleStep worker cycle).2.put i (.leading background (f.cycleStep worker cycle).1)) := by
  obtain ⟨threads, -, -, -, queues⟩ := Floor.cycleStep_same manned found worker
  have drains (phase : Phase) (none : f.rootQueues.entries phase = []) :
      (f.cycleStep worker cycle).2.rootQueues.entries phase = [] := by
    rw [queues]
    exact cycle.entries_left none
  refine tended.moved stepped found (fun m same => by cases same) ?_ drains fun ahead => ?_
  · show (f.cycleStep worker cycle).2.rootQueues.size ≤ f.rootQueues.size
    rw [queues]
    exact cycle.size_left _
  · refine .ahead (Floor.getElem?_put_self found threads _) ⟨ahead.1, fun phase past => ?_⟩
    obtain ⟨cycle', h, moved, -, -, reached⟩ := manned.cycleStep found goes worker
    rw [moved] at past
    rcases reached phase past with earlier | ⟨touched, rfl⟩
    · exact drains phase (ahead.2 phase earlier)
    · exact (congrArg (·.entries phase) queues).trans (f.rootQueues.entries_drop_self phase)

/-- Every step leaves full queues tended, or it is one at which a call misses them. -/
theorem Tended.step (tended : Tended n f) (watched : Watched config f) (threshold : config.commitThreshold = n)
    (auto : 0 < n) (manned : Manned root behindSites base leader? j f) (stepped : f.step? i worker = some g) :
    Tended n g ∨ f.Misses n i := by
  obtain ⟨t, found, moves⟩ := Floor.moves_of_step? stepped
  have placed (h : Floor) (u : Thread) (kept : h.threads = f.threads) := Floor.getElem?_put_self found kept u
  cases moves with
  | schedule queued => exact tended.schedule watched threshold auto found stepped
  | push phase doc => exact .inl (tended.push manned found stepped)
  | arrive background =>
    refine .inl ?_
    cases running : f.gate.running with
    | true =>
      rw [Floor.arrive_of_running running] at stepped ⊢
      exact tended.moved stepped found (fun m same => by cases same) (Nat.le_refl _) (fun _ => id) fun ahead =>
        .ahead (placed f _ rfl) ahead
    | false =>
      rw [Floor.arrive_of_free running] at stepped ⊢
      exact tended.moved stepped found (fun m same => by cases same) (Nat.le_refl _) (fun _ => id) fun ahead =>
        .ahead (placed _ _ rfl) ⟨ahead, fun _ past => past.elim⟩
  | wake background told =>
    obtain ⟨-, rfl⟩ := Gate.told_of_last watched.last told
    exact .inl (tended.moved stepped found (fun m same => by cases same) (Nat.le_refl _) (fun _ => id) fun ahead =>
      .ahead (placed f _ rfl) ahead)
  | stop background drained =>
    refine .inl (.few ?_)
    show f.ingestor.queued < n
    rwa [drained]
  | again background _ =>
    exact .inl (tended.moved stepped found (fun m same => by cases same) (Nat.le_refl _) (fun _ => id) fun ahead =>
      .ahead (placed f _ rfl) ahead)
  | lead background goes => exact .inl (tended.lead manned found goes stepped)
  | land background ended =>
    obtain ⟨⟨count, rfl⟩, -⟩ := manned.land found
    refine .inl (tended.moved stepped found (fun m same => by cases same) (Nat.le_refl _) (fun _ => id) fun ahead => ?_)
    -- The queues are empty where both phases are over.
    refine .few ?_
    show f.ingestor.queued < n
    rwa [Floor.queued_eq_zero fun phase => ahead.2 phase trivial]
  | clear =>
    -- Whoever clears the mark has been past everything, so it was not what the queues were tended by.
    exact .inl (tended.moved stepped found (fun m same => by cases same) (Nat.le_refl _) (fun _ => id) False.elim)

end Steps

/-! ## Runs -/

section Runs

variable {root : Site} {behindSites : List Site} {base : Buckets} {leader? : Option (Nat × Cycle)} {config : Config}
  {n : Nat} {j : Journal} {f g : Floor}

/-- After a run full queues are tended, unless a call has missed them on the way. -/
theorem Tended.run (tended : Tended n f) (watched : Watched config f) (threshold : config.commitThreshold = n)
    (auto : 0 < n) (manned : Manned root behindSites base leader? j f) {schedule : Floor.Schedule}
    (ran : f.run? schedule = some g) :
    Tended n g ∨ ∃ before i worker later mid, schedule = before ++ (i, worker) :: later ∧
      f.run? before = some mid ∧ mid.Misses n i := by
  induction schedule generalizing f j leader? with
  | nil =>
    cases ran
    exact .inl tended
  | cons s rest ih =>
    obtain ⟨next, first, ran⟩ := Option.bind_eq_some_iff.1 ran
    rcases tended.step watched threshold auto manned first with tended | missed
    · obtain ⟨leader?', manned'⟩ := manned.step first
      rcases ih tended (watched.step manned first) manned' ran with tended | missed
      · exact .inl tended
      · obtain ⟨before, i, worker, later, mid, same, went, missed⟩ := missed
        refine .inr ⟨s :: before, i, worker, later, mid, by rw [same, List.cons_append], ?_, missed⟩
        exact Option.bind_eq_some_iff.2 ⟨next, first, went⟩
    · exact .inr ⟨[], s.1, s.2, rest, f, rfl, rfl, missed⟩

/-- Where all threads have returned, only a few entries are queued if they are tended. -/
theorem Tended.queued_lt (tended : Tended n f) (returned : ∀ t ∈ f.threads, ∃ result, t = .ended result) :
    f.ingestor.queued < n := by
  cases tended with
  | few few => exact few
  | asks found _ =>
    obtain ⟨_, same⟩ := returned _ (List.mem_of_getElem? found)
    cases same
  | ahead found ahead =>
    obtain ⟨_, rfl⟩ := returned _ (List.mem_of_getElem? found)
    exact ahead.elim

end Runs

/-- When all calls and all background commits on an ingestor have returned, its queues are full only if
some call found them full while a commit was pending that had gone past what they hold. -/
theorem full_only_if_missed (p : Pipeline) {config : Config} (valid : config.validate = .ok ())
    (auto : 0 < config.commitThreshold) {w : World} (never : w.plan = .never) (nested : w.store.Nested)
    {scope : ScopeId} (open_ : scope < w.store.scopes.length) :
    ∃ t : Ingestor.Session,
      (Ingestor.openAt scope p config : Action Error Unit Ingestor).run () w = (.ok t.1, (), t.2) ∧
      ∀ calls : List Thread, (∀ call ∈ calls, call.IsCall) → ∀ (schedule : Floor.Schedule) (g : Floor),
        (Floor.start t calls).run? schedule = some g → (∀ call ∈ g.threads, ∃ result, call = .ended result) →
        g.ingestor.queued < config.commitThreshold ∨
          ∃ before i worker later f, schedule = before ++ (i, worker) :: later ∧
            (Floor.start t calls).run? before = some f ∧ f.Misses config.commitThreshold i := by
  obtain ⟨root, behindSites, t, ran, ingestor, plan, -, rfl, placed, same⟩ :=
    Ingestor.run_openAt p valid nested open_ (never ▸ FaultPlan.never_rootOnly.mild)
  refine ⟨t, ran, fun calls fresh schedule g went returned => ?_⟩
  have manned := Manned.start ingestor (plan.trans never) placed fresh
  have watched : Watched config (.start t calls) := by
    refine ⟨by rw [Floor.start, ingestor], fun mark => ?_, rfl⟩
    rw [Floor.start, ingestor] at mark
    exact Bool.noConfusion mark
  have few : (Floor.start t calls).ingestor.queued < config.commitThreshold := by
    rw [Floor.start, ingestor]
    exact auto
  rcases (Tended.few few).run watched rfl auto manned went with tended | missed
  · exact .inl (tended.queued_lt returned)
  · exact .inr missed

/-- One document is being applied in the background when the call that queues another finds the commit
pending, and the entry of the other stays. -/
theorem full_only_if_missed_amid_commit :
    let p := Pipeline.ofVerbs [.brokenDownBy "a" "A"]
    let config : Config := { commitThreshold := 1 }
    let calls : List Thread := [.ingest ⟨[("a", .text "x")]⟩, .ingest ⟨[("a", .text "y")]⟩]
    let schedule : Floor.Schedule :=
      List.replicate 2 (0, 0) ++ List.replicate 3 (2, 0) ++ List.replicate 2 (1, 0) ++ List.replicate 6 (2, 0)
    ∃ t : Ingestor.Session,
      (Ingestor.openAt Store.root p config : Action Error Unit Ingestor).run () {} = (.ok t.1, (), t.2) ∧
      ((Floor.start t calls).run? schedule).isSome ∧
      ∃ before i worker later f, schedule = before ++ (i, worker) :: later ∧
        (Floor.start t calls).run? before = some f ∧ f.Misses 1 i := by
  intro p config calls schedule
  obtain ⟨t, ran, misses⟩ :=
    @full_only_if_missed p config rfl Nat.zero_lt_one {} rfl Store.nested_fresh Store.root Nat.zero_lt_one
  obtain rfl : t = ({ sites := [⟨p.root, Store.root⟩], queues := [{}], config }, {}) :=
    Ingestor.session_unique ran rfl
  have fresh : ∀ call ∈ calls, call.IsCall := by
    intro call mem
    simp only [calls, List.mem_cons, List.not_mem_nil, or_false] at mem
    rcases mem with rfl | rfl <;> trivial
  have ends : ((Floor.start ({ sites := [⟨p.root, Store.root⟩], queues := [{}], config }, {}) calls).run?
      schedule).map (fun g => (g.threads, g.ingestor.queued)) = some (List.replicate 3 (.ended (.ok ())), 1) := by cbv
  obtain ⟨g, went, same⟩ := Option.map_eq_some_iff.1 ends
  obtain ⟨returned, queued⟩ := Prod.mk.inj same
  rcases misses calls fresh schedule g went fun call mem => ⟨_, List.eq_of_mem_replicate (returned ▸ mem)⟩ with
    few | missed
  · rw [queued] at few
    exact absurd few (Nat.lt_irrefl 1)
  · exact ⟨_, ran, by rw [went]; rfl, missed⟩

/-- All calls have returned, no commit is under way, and the queues are full. -/
theorem queue_left_full :
    let p := Pipeline.ofVerbs [.brokenDownBy "a" "A"]
    let config : Config := { commitThreshold := 1 }
    let t : Ingestor.Session := ({ sites := [⟨p.root, Store.root⟩], queues := [{}], config }, {})
    let calls : List Thread := [.ingest ⟨[("a", .text "x")]⟩, .ingest ⟨[("a", .text "y")]⟩]
    let schedule : Floor.Schedule :=
      List.replicate 2 (0, 0) ++ List.replicate 3 (2, 0) ++ List.replicate 2 (1, 0) ++ List.replicate 6 (2, 0)
    (Ingestor.openAt Store.root p config : Action Error Unit Ingestor).run () {} = (.ok t.1, (), t.2) ∧
      ∃ g, (Floor.start t calls).run? schedule = some g ∧
        (∀ call ∈ g.threads, ∃ result, call = .ended result) ∧
        g.gate.running = false ∧ config.commitThreshold ≤ g.ingestor.queued := by
  intro p config t calls schedule
  have ends : ((Floor.start t calls).run? schedule).map (fun g => (g.threads, g.gate.running, g.ingestor.queued)) =
      some (List.replicate 3 (.ended (.ok ())), false, 1) := by cbv
  obtain ⟨g, went, same⟩ := Option.map_eq_some_iff.1 ends
  obtain ⟨returned, same⟩ := Prod.mk.inj same
  obtain ⟨free, queued⟩ := Prod.mk.inj same
  exact ⟨rfl, g, went, fun call mem => ⟨_, List.eq_of_mem_replicate (returned ▸ mem)⟩, free, queued.ge⟩

end Rollup.Concurrent
