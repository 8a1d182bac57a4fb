import Rollup.Proofs.Concurrent.Threads

/-!
# Background commits

The calls of a program are threads that go one after the other, and the background commits that they
start are threads of their own, which go whenever they like (`Floor.inTurn`).  At most one of them is
under way, while the ingestor is marked for it (`Backed`).  Its steps do not get in the way of the
program: they queue nothing, and a cycle that the program waits for ends only when they have nothing
left to do but to clear the mark (`Beside`).
-/

namespace Rollup

/-- Where no cycle has failed, a waiter is told none. -/
theorem Gate.told_of_last {gate : Gate} (last : gate.last.getD (.ok ()) = .ok ()) {generation : UInt64}
    {outcome : Outcome} (told : gate.outcome? generation = some outcome) :
    gate.holds generation = false ∧ outcome = .ok () := by
  rw [outcome?] at told
  split at told
  · cases told
  next free =>
  exact ⟨Bool.eq_false_iff.2 free, (Option.some.inj told).symm.trans last⟩

theorem Queues.entries_drop_self (q : Queues) (phase : Phase) : (q.drop phase).entries phase = [] := by
  cases phase <;> rfl

namespace Concurrent

open Ingest

/-! ## Turns -/

/-- Whether the first `n` threads have returned. -/
def Floor.returned (n : Nat) (f : Floor) : Bool :=
  (List.range n).all fun k => (f.threads[k]?.bind Thread.result?).isSome

theorem Floor.returned_iff {n : Nat} {f : Floor} :
    f.returned n = true ↔ ∀ k < n, ∃ result, f.threads[k]? = some (.ended result) := by
  simp only [returned, List.all_eq_true, List.mem_range, Option.isSome_iff_exists, Option.bind_eq_some_iff]
  refine forall₂_congr fun k _ => exists_congr fun result => ⟨?_, fun found => ⟨_, found, rfl⟩⟩
  rintro ⟨t, found, ended⟩
  cases t with
  | ended _ => rw [found, Option.some.inj ended]
  | pushing _ _ | scheduling _ | arriving _ | waiting _ _ | rechecking _ | leading _ _ | clearing => cases ended

/-- Whether the first `n` threads go one after the other, and those behind them whenever they like. -/
def Floor.inTurn (n : Nat) : Floor → Floor.Schedule → Bool
  | _, [] => true
  | f, s :: rest =>
    (decide (n ≤ s.1) || f.returned s.1) && (f.step? s.1 s.2).all (Floor.inTurn n · rest)

/-- What every step in turn preserves holds after a run in turn. -/
theorem Floor.run?_induction_inTurn {n : Nat} {p : Journal → Floor → Prop}
    (step : ∀ j f g i worker, p j f → (i < n → f.returned i = true) → f.step? i worker = some g → p (j.note f i) g)
    {schedule : Schedule} {j : Journal} {f g : Floor} (start : p j f) (turns : f.inTurn n schedule = true)
    (ran : f.run? schedule = some g) : p (j.keep f schedule) g := by
  induction schedule generalizing j f with
  | nil =>
    cases ran
    exact start
  | cons s rest ih =>
    rw [run?, List.foldlM_cons] at ran
    obtain ⟨mid, first, later⟩ := Option.bind_eq_some_iff.1 ran
    rw [inTurn, first, Bool.and_eq_true, Bool.or_eq_true, decide_eq_true_eq] at turns
    obtain ⟨turn, turns⟩ := turns
    rw [Journal.keep, first]
    exact ih (step _ _ _ _ _ start (fun front => turn.resolve_left (Nat.not_le.2 front)) first) turns later

/-! ## Background commits -/

/-- A background commit that has not returned. -/
def Thread.Background : Thread → Prop
  | .arriving background | .waiting background _ | .rechecking background | .leading background _ => background = true
  | .clearing => True
  | .pushing _ _ | .scheduling _ | .ended _ => False

/-- The threads from the one with number `n` are background commits, of which at most one is under way and
only while it is marked, and no cycle has failed. -/
structure Backed (n : Nat) (f : Floor) : Prop where
  length : n ≤ f.threads.length
  kind : ∀ k t, n ≤ k → f.threads[k]? = some t → t.Background ∨ ∃ result, t = .ended result
  alone : ∀ k t, n ≤ k → f.threads[k]? = some t → t.Background → f.ingestor.backgroundPending = true ∧
    ∀ k' t', n ≤ k' → f.threads[k']? = some t' → t'.Background → k' = k
  last : f.gate.last.getD (.ok ()) = .ok ()

/-- A background commit that is under way has nothing left to do but to clear its mark. -/
def Calm (n : Nat) (f : Floor) : Prop :=
  ∀ k t, n ≤ k → f.threads[k]? = some t → t = .clearing ∨ ∃ result, t = .ended result

section Backed

variable {n i worker : Nat} {f g : Floor} {t u : Thread}

theorem Backed.told (backed : Backed n f) {generation : UInt64} {outcome : Outcome}
    (told : f.gate.outcome? generation = some outcome) : f.gate.holds generation = false ∧ outcome = .ok () :=
  Gate.told_of_last backed.last told

/-- A thread in front moves on. -/
theorem Backed.front (backed : Backed n f) (front : i < n) (threads : g.threads = f.threads.set i u)
    (pending : g.ingestor.backgroundPending = f.ingestor.backgroundPending)
    (last : g.gate.last.getD (.ok ()) = .ok ()) :
    Backed n g := by
  have same (k : Nat) (behind : n ≤ k) : g.threads[k]? = f.threads[k]? := by
    rw [threads, List.getElem?_set_ne (Nat.ne_of_lt (Nat.lt_of_lt_of_le front behind))]
  refine ⟨?_, fun k t behind => ?_, fun k t behind found alive => ?_, last⟩
  · rw [threads, List.length_set]
    exact backed.length
  · rw [same k behind]
    exact backed.kind k t behind
  · rw [same k behind] at found
    rw [pending]
    refine ⟨(backed.alone k t behind found alive).1, fun k' t' behind' found' => ?_⟩
    rw [same k' behind'] at found'
    exact (backed.alone k t behind found alive).2 k' t' behind' found'

theorem Calm.front (calm : Calm n f) (front : i < n) (threads : g.threads = f.threads.set i u) : Calm n g := by
  intro k t behind found
  rw [threads, List.getElem?_set_ne (Nat.ne_of_lt (Nat.lt_of_lt_of_le front behind))] at found
  exact calm k t behind found

/-- A background commit moves on and is not over yet. -/
theorem Backed.back (backed : Backed n f) (behind : n ≤ i) (found : f.threads[i]? = some t) (alive : t.Background)
    (threads : g.threads = f.threads.set i u) (still : u.Background)
    (pending : g.ingestor.backgroundPending = f.ingestor.backgroundPending)
    (last : g.gate.last.getD (.ok ()) = .ok ()) :
    Backed n g := by
  have present := (List.getElem?_eq_some_iff.1 found).1
  have here : g.threads[i]? = some u := by rw [threads, List.getElem?_set_self present]
  have other (k : Nat) (apart : k ≠ i) : g.threads[k]? = f.threads[k]? := by
    rw [threads, List.getElem?_set_ne apart.symm]
  obtain ⟨marked, only⟩ := backed.alone i t behind found alive
  -- Every background commit that is under way is the one that moved on.
  have only' : ∀ k t', n ≤ k → g.threads[k]? = some t' → t'.Background → k = i := by
    intro k t' behind' found' alive'
    by_contra apart
    rw [other k apart] at found'
    exact apart (only k t' behind' found' alive')
  refine ⟨?_, fun k t' behind' found' => ?_, fun k t' behind' found' alive' => ?_, last⟩
  · rw [threads, List.length_set]
    exact backed.length
  · by_cases same : k = i
    · rw [same, here] at found'
      exact .inl (Option.some.inj found' ▸ still)
    · rw [other k same] at found'
      exact backed.kind k t' behind' found'
  · obtain rfl := only' k t' behind' found' alive'
    exact ⟨pending.trans marked, fun k' u' behind'' found'' alive'' => only' k' u' behind'' found'' alive''⟩

/-- The mark is cleared, and no background commit is under way. -/
theorem Backed.clear (backed : Backed n f) (behind : n ≤ i) (found : f.threads[i]? = some .clearing) :
    Backed n ((f.mark false).put i (.ended (.ok ()))) := by
  have present := (List.getElem?_eq_some_iff.1 found).1
  obtain ⟨-, only⟩ := backed.alone i .clearing behind found trivial
  have threads : ((f.mark false).put i (.ended (.ok ()))).threads = f.threads.set i (.ended (.ok ())) := rfl
  refine ⟨?_, fun k t' behind' found' => ?_, fun k t' behind' found' alive' => ?_, backed.last⟩
  · rw [threads, List.length_set]
    exact backed.length
  · by_cases same : k = i
    · rw [same, threads, List.getElem?_set_self present] at found'
      exact .inr ⟨_, (Option.some.inj found').symm⟩
    · rw [threads, List.getElem?_set_ne (Ne.symm same)] at found'
      exact backed.kind k t' behind' found'
  · by_cases same : k = i
    · rw [same, threads, List.getElem?_set_self present] at found'
      rw [← Option.some.inj found'] at alive'
      exact alive'.elim
    · rw [threads, List.getElem?_set_ne (Ne.symm same)] at found'
      exact absurd (only k t' behind' found' alive') same

/-- A background commit is started where none is under way. -/
theorem Backed.spawn (backed : Backed n f) (idle : f.ingestor.backgroundPending = false) :
    Backed n ((f.mark true).spawn (.arriving true)) := by
  have quiet : ∀ k t, n ≤ k → f.threads[k]? = some t → ¬ t.Background := by
    intro k t behind found alive
    have marked := (backed.alone k t behind found alive).1
    rw [idle] at marked
    cases marked
  have threads : ((f.mark true).spawn (.arriving true)).threads = f.threads ++ [.arriving true] := rfl
  -- A thread that is not one of the others is the new one.
  have placed : ∀ k t, (f.threads ++ [Thread.arriving true])[k]? = some t →
      f.threads[k]? = some t ∨ k = f.threads.length ∧ t = .arriving true := by
    intro k t found
    rcases Nat.lt_or_ge k f.threads.length with old | new
    · rw [List.getElem?_append_left old] at found
      exact .inl found
    · rw [List.getElem?_append_right new] at found
      obtain ⟨first, own⟩ := List.getElem?_eq_some_iff.1 found
      rw [List.length_singleton] at first
      refine .inr ⟨by omega, ?_⟩
      rw [← own, List.getElem_singleton]
  refine ⟨?_, fun k t behind found => ?_, fun k t behind found alive => ⟨rfl, ?_⟩, backed.last⟩
  · rw [threads, List.length_append]
    exact Nat.le_add_right_of_le backed.length
  · rw [threads] at found
    rcases placed k t found with old | ⟨-, rfl⟩
    · exact backed.kind k t behind old
    · exact .inl rfl
  · intro k' t' behind' found' alive'
    rw [threads] at found found'
    rcases placed k t found with old | ⟨rfl, -⟩
    · exact absurd alive (quiet k t behind old)
    rcases placed k' t' found' with old' | ⟨rfl, -⟩
    · exact absurd alive' (quiet k' t' behind' old')
    · rfl

end Backed

/-! ## Steps of background commits -/

/-- A queue that is empty stays so through a step of a cycle. -/
theorem Cycle.entries_left {q : Queues} {phase : Phase} (cycle : Cycle) (none : q.entries phase = []) :
    (cycle.left q).entries phase = [] := by
  cases cycle with
  | draining which touched =>
    by_cases same : which = phase
    · rw [same]
      exact q.entries_drop_self phase
    · cases which <;> cases phase <;> first | exact absurd rfl same | exact none
  | revising _ _ _ | flushing _ | ending _ => exact none

/-- What a step of a background commit leaves of a floor and its journal. -/
structure Beside (n : Nat) (j : Journal) (f : Floor) (j' : Journal) (g : Floor) : Prop where
  backed : Backed n g
  threads : ∀ k < n, g.threads[k]? = f.threads[k]?
  pushed : j'.pushed = j.pushed
  finished : ∀ phase, j.finished.flatMap (·.entries phase) <+: j'.finished.flatMap (·.entries phase)
  queues : ∀ phase, f.rootQueues.entries phase = [] → g.rootQueues.entries phase = []
  /-- Only the end of a cycle lets those go that wait for it. -/
  waits : ∀ generation, f.gate.holds generation = true → g.gate.holds generation = true ∨ Calm n g
  calm : Calm n f → Calm n g

section Beside

variable {root : Site} {behindSites : List Site} {base : Buckets} {leader? : Option (Nat × Cycle)} {n i worker : Nat}
  {j j' : Journal} {f g : Floor} {t u : Thread}

theorem Backed.beside_of_back (backed : Backed n f) (behind : n ≤ i) (found : f.threads[i]? = some t)
    (alive : t.Background) (busy : t ≠ .clearing) (threads : g.threads = f.threads.set i u) (still : u.Background)
    (pending : g.ingestor.backgroundPending = f.ingestor.backgroundPending) (last : g.gate.last.getD (.ok ()) = .ok ())
    (pushed : j'.pushed = j.pushed)
    (finished : ∀ phase, j.finished.flatMap (·.entries phase) <+: j'.finished.flatMap (·.entries phase))
    (queues : ∀ phase, f.rootQueues.entries phase = [] → g.rootQueues.entries phase = [])
    (waits : ∀ generation, f.gate.holds generation = true → g.gate.holds generation = true ∨ Calm n g) :
    Beside n j f j' g where
  backed := backed.back behind found alive threads still pending last
  threads k below := by rw [threads, List.getElem?_set_ne (Nat.ne_of_gt (Nat.lt_of_lt_of_le below behind))]
  pushed := pushed
  finished := finished
  queues := queues
  waits := waits
  calm calm := by
    rcases calm i t behind found with rfl | ⟨result, rfl⟩
    · exact absurd rfl busy
    · exact alive.elim

theorem Backed.beside_of_put (backed : Backed n f) (behind : n ≤ i) (found : f.threads[i]? = some t)
    (alive : t.Background) (busy : t ≠ .clearing) (still : u.Background) : Beside n j f j (f.put i u) :=
  backed.beside_of_back behind found alive busy rfl still rfl backed.last rfl (fun _ => List.prefix_refl _)
    (fun _ => id) fun _ => .inl

/-- A background commit that has nothing left but to clear its mark is the only one. -/
theorem Backed.calm (backed : Backed n g) (behind : n ≤ i) (found : g.threads[i]? = some .clearing) : Calm n g := by
  intro k t behind' found'
  rcases backed.kind k t behind' found' with alive | ended
  · obtain rfl := (backed.alone i .clearing behind found trivial).2 k t behind' found' alive
    exact .inl (Option.some.inj (found'.symm.trans found))
  · exact .inr ended

/-- A background commit leads where no cycle runs, and else waits for the one that does. -/
theorem Backed.beside_arrive (backed : Backed n f) (behind : n ≤ i)
    (found : f.threads[i]? = some (.arriving true)) :
    Beside n j f j ((f.arrive true).2.put i (f.arrive true).1) := by
  cases running : f.gate.running with
  | true =>
    rw [Floor.arrive_of_running running]
    exact backed.beside_of_put behind found rfl (by simp) rfl
  | false =>
    rw [Floor.arrive_of_free running]
    refine backed.beside_of_back behind found rfl (by simp) rfl rfl rfl backed.last rfl
      (fun _ => List.prefix_refl _) (fun _ => id) fun generation holds => ?_
    -- Nobody waits at a gate that is free.
    rw [Gate.holds, running] at holds
    cases holds

/-- The cycle that a background commit has led ends: all that is left of it is the mark. -/
theorem Backed.beside_land (backed : Backed n f) (behind : n ≤ i) {count : Nat}
    (found : f.threads[i]? = some (.leading true (.ending (.ok count))))
    (pushed : j'.pushed = j.pushed)
    (finished : ∀ phase, j.finished.flatMap (·.entries phase) <+: j'.finished.flatMap (·.entries phase)) :
    Beside n j f j' ((f.land true (.ok count)).2.put i (f.land true (.ok count)).1) := by
  have present := (List.getElem?_eq_some_iff.1 found).1
  have threads : ((f.land true (.ok count)).2.put i (f.land true (.ok count)).1).threads =
      f.threads.set i .clearing := rfl
  have backed' := backed.back behind found rfl threads trivial rfl rfl
  have calm := backed'.calm behind (by rw [threads, List.getElem?_set_self present])
  exact backed.beside_of_back behind found rfl (by simp) threads trivial rfl rfl pushed finished (fun _ => id)
    fun _ _ => .inr calm

/-- A background commit clears its mark and is over. -/
theorem Backed.beside_clear (backed : Backed n f) (behind : n ≤ i) (found : f.threads[i]? = some .clearing) :
    Beside n j f j ((f.mark false).put i (.ended (.ok ()))) := by
  have present := (List.getElem?_eq_some_iff.1 found).1
  have threads : ((f.mark false).put i (.ended (.ok ()))).threads = f.threads.set i (.ended (.ok ())) := rfl
  have calm : Calm n ((f.mark false).put i (.ended (.ok ()))) := by
    intro k t behind' found'
    by_cases own : k = i
    · subst own
      rw [threads, List.getElem?_set_self present] at found'
      exact .inr ⟨_, (Option.some.inj found').symm⟩
    · rw [threads, List.getElem?_set_ne (Ne.symm own)] at found'
      exact backed.calm behind found k t behind' found'
  refine ⟨backed.clear behind found, fun k below => ?_, rfl, fun _ => List.prefix_refl _, fun _ => id,
    fun _ _ => .inr calm, fun _ => calm⟩
  rw [threads, List.getElem?_set_ne (Nat.ne_of_gt (Nat.lt_of_lt_of_le below behind))]

/-- Every step of a background commit. -/
theorem Backed.beside (backed : Backed n f) (manned : Manned root behindSites base leader? j f) (behind : n ≤ i)
    (stepped : f.step? i worker = some g) : Beside n j f (j.note f i) g := by
  obtain ⟨t, found, moves⟩ := Floor.moves_of_step? stepped
  have alive : t.Background := by
    rcases backed.kind i t behind found with alive | ⟨result, rfl⟩
    · exact alive
    · cases moves
  -- A thread that is alive behind the program is in the background: its flag is set, and it does not push.
  cases moves with
  | push | schedule => exact alive.elim
  | arrive background =>
    obtain rfl : background = true := alive
    rw [Journal.note_idle found trivial]
    exact backed.beside_arrive behind found
  | @wake background generation outcome told =>
    obtain rfl : background = true := alive
    obtain ⟨-, rfl⟩ := backed.told told
    rw [Journal.note_idle found trivial]
    exact backed.beside_of_put behind found rfl (by simp) rfl
  | stop background _ =>
    obtain rfl : background = true := alive
    rw [Journal.note_idle found trivial]
    exact backed.beside_of_put behind found rfl (by simp) trivial
  | again background _ =>
    obtain rfl : background = true := alive
    rw [Journal.note_idle found trivial]
    exact backed.beside_of_put behind found rfl (by simp) rfl
  | @lead background cycle goes =>
    obtain rfl : background = true := alive
    obtain ⟨cycle', qs', w', moved, -, -, -, -⟩ := manned.turn found worker
    rw [Journal.note_leading found goes, moved]
    exact backed.beside_of_back behind found rfl (by simp) rfl rfl rfl backed.last rfl
      (fun _ => List.prefix_refl _) (fun phase none => cycle.entries_left none) fun _ => .inl
  | land background ended =>
    obtain rfl : background = true := alive
    obtain ⟨⟨count, rfl⟩, -⟩ := manned.land found
    rw [Journal.note_ending found]
    refine backed.beside_land behind found rfl fun phase => ?_
    rw [List.flatMap_append]
    exact List.prefix_append _ _
  | clear =>
    rw [Journal.note_idle found trivial]
    exact backed.beside_clear behind found

end Beside

end Concurrent

end Rollup
