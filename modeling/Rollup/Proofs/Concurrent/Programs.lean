import Rollup.Proofs.Concurrent.Background
import Rollup.Proofs.Concurrent.Chains
import Rollup.Proofs.Concurrent.Coverage

/-!
# Programs

A program makes its calls one after the other while background commits go beside it.  A call to commit
that waits for one of these finds it done with its cycle, so when the call returns, everything that was
queued by the calls before it is in the batches of cycles that have ended (`Attends`).  If no document
is added after a commit before which none is retracted, then no batch adds after one that retracts
(`Attends.order`), and the store is what such batches make of it (`Floor.run_inTurn`).
-/

namespace Rollup

theorem Queues.eq_of_entries {q q' : Queues} (same : ∀ phase, q.entries phase = q'.entries phase) : q = q' := by
  obtain ⟨additions, retractions⟩ := q
  obtain rfl : additions = q'.additions := same .add
  obtain rfl : retractions = q'.retractions := same .retract
  rfl

namespace Concurrent

open Ingest

/-! ## The program -/

/-- The entry that a call queues in a phase. -/
def Thread.entry? (stage : Stage) (phase : Phase) : Thread → Option (Key × Document)
  | .pushing which doc => if which = phase then stage.map? doc else none
  | _ => none

/-- The entries that calls queue in a phase. -/
def queuedBy (stage : Stage) (phase : Phase) (calls : List Thread) : List (Key × Document) :=
  calls.filterMap (Thread.entry? stage phase)

/-- So many of the calls have queued their entries. -/
def Pushed (stage : Stage) (calls : List Thread) (m : Nat) (j : Journal) : Prop :=
  ∀ phase, j.pushed.entries phase = queuedBy stage phase (calls.take m)

/-- How far a call to commit has come, among the background commits from thread `n` on. -/
inductive Committing (n : Nat) (f : Floor) : Thread → Prop
  | arriving : Committing n f (.arriving false)
  /-- The cycle that it waits for is running, or the background commit that led it is done. -/
  | waiting (generation : UInt64) (waits : f.gate.holds generation = true ∨ Calm n f) :
      Committing n f (.waiting false generation)
  | rechecking (calm : Calm n f) : Committing n f (.rechecking false)
  /-- The queues that its cycle has drained stay empty. -/
  | leading (cycle : Cycle) (drained : ∀ phase, cycle.Past phase → f.rootQueues.entries phase = []) :
      Committing n f (.leading false cycle)

/-- How far the call with number `m` has come. -/
inductive Calling (stage : Stage) (calls : List Thread) (m : Nat) (j : Journal) (f : Floor) : Thread → Prop
  | pushing {phase : Phase} {doc : Document} (call : calls[m]? = some (.pushing phase doc))
      (pushed : Pushed stage calls m j) : Calling stage calls m j f (.pushing phase doc)
  | scheduling {phase : Phase} {doc : Document} (queued : Nat) (call : calls[m]? = some (.pushing phase doc))
      (pushed : Pushed stage calls (m + 1) j) : Calling stage calls m j f (.scheduling queued)
  | committing {t : Thread} (call : calls[m]? = some .commit) (pushed : Pushed stage calls m j)
      (commits : Committing calls.length f t) : Calling stage calls m j f t

/-- A program has come to its call with number `m`: the calls before have returned, those behind have not
begun, and what was queued before a commit that has returned is in the batches of finished cycles. -/
structure Attends (stage : Stage) (calls : List Thread) (m : Nat) (j : Journal) (f : Floor) : Prop where
  backed : Backed calls.length f
  past : ∀ k < m, f.threads[k]? = some (.ended (.ok ()))
  ahead : ∀ k, m < k → k < calls.length → f.threads[k]? = calls[k]?
  here : (m = calls.length ∧ Pushed stage calls m j) ∨ ∃ t, f.threads[m]? = some t ∧ Calling stage calls m j f t
  covered : ∀ k < m, calls[k]? = some .commit →
    ∀ phase, queuedBy stage phase (calls.take k) <+: j.finished.flatMap (·.entries phase)

section Program

variable {stage : Stage} {calls : List Thread} {m i worker : Nat} {j j' : Journal} {f g : Floor} {t : Thread}

theorem queuedBy_take_succ (phase : Phase) (call : calls[m]? = some t) :
    queuedBy stage phase (calls.take (m + 1)) =
      queuedBy stage phase (calls.take m) ++ (t.entry? stage phase).toList := by
  rw [queuedBy, List.take_add_one, call, List.filterMap_append]
  cases made : t.entry? stage phase <;> simp [queuedBy, made]

theorem queuedBy_prefix (stage : Stage) (phase : Phase) {first : List Thread} (earlier : first <+: calls) :
    queuedBy stage phase first <+: queuedBy stage phase calls :=
  earlier.filterMap _

/-- A call that queues nothing is done with its queues. -/
theorem Pushed.succ (pushed : Pushed stage calls m j) (call : calls[m]? = some t)
    (silent : ∀ phase, t.entry? stage phase = none) : Pushed stage calls (m + 1) j := by
  intro phase
  rw [queuedBy_take_succ phase call, silent phase, pushed phase]
  exact (List.append_nil _).symm

theorem Pushed.push {phase : Phase} {doc : Document} (pushed : Pushed stage calls m j)
    (call : calls[m]? = some (.pushing phase doc)) :
    Pushed stage calls (m + 1) { j with pushed := (stage.map? doc).elim j.pushed (j.pushed.push · phase) } := by
  intro which
  rw [queuedBy_take_succ which call, ← pushed which, Thread.entry?]
  cases stage.map? doc with
  | none => simp
  | some entry =>
    show (j.pushed.push entry phase).entries which = _
    rw [Queues.entries_push]
    by_cases same : phase = which <;> simp [same, eq_comm]

theorem Calling.fresh (call : calls[m]? = some t) (isCall : t.IsCall) (pushed : Pushed stage calls m j) :
    Calling stage calls m j f t := by
  cases t with
  | pushing phase doc => exact .pushing call pushed
  | arriving background =>
    cases background with
    | true => cases isCall
    | false => exact .committing call pushed .arriving
  | scheduling _ | waiting _ _ | rechecking _ | leading _ _ | clearing | ended _ => cases isCall

theorem Calling.lt (calling : Calling stage calls m j f t) : m < calls.length := by
  cases calling with
  | pushing call | scheduling _ call | committing call => exact (List.getElem?_eq_some_iff.1 call).1

theorem Calling.not_ended (calling : Calling stage calls m j f t) (result : Except (Failure Error) Unit) :
    t ≠ .ended result := by
  rintro rfl
  cases calling with
  | committing _ _ commits => cases commits

/-- When a call has returned, the program comes to the next one. -/
theorem Attends.next (attends : Attends stage calls m j f) (fresh : ∀ call ∈ calls, call.IsCall)
    (lt : m < calls.length) (backed : Backed calls.length g)
    (threads : ∀ k < calls.length, g.threads[k]? = (f.threads.set m (.ended (.ok ())))[k]?)
    (pushed : Pushed stage calls (m + 1) j') (finished : ∀ phase,
      j.finished.flatMap (·.entries phase) <+: j'.finished.flatMap (·.entries phase))
    (covers : calls[m]? = some .commit →
      ∀ phase, queuedBy stage phase (calls.take m) <+: j'.finished.flatMap (·.entries phase)) :
    Attends stage calls (m + 1) j' g := by
  have present : m < f.threads.length := Nat.lt_of_lt_of_le lt attends.backed.length
  have other (k : Nat) (below : k < calls.length) (apart : k ≠ m) : g.threads[k]? = f.threads[k]? := by
    rw [threads k below, List.getElem?_set_ne apart.symm]
  refine ⟨backed, fun k less => ?_, fun k greater below => ?_, ?_, fun k less call phase => ?_⟩
  · rcases Nat.lt_succ_iff_lt_or_eq.1 less with earlier | rfl
    · rw [other k (by omega) (by omega)]
      exact attends.past k earlier
    · rw [threads k lt, List.getElem?_set_self present]
  · rw [other k below (by omega)]
    exact attends.ahead k (by omega) below
  · -- The next call has not begun, for no thread in front has moved but this one.
    rcases Nat.lt_or_ge (m + 1) calls.length with more | last
    · have call : calls[m + 1]? = some calls[m + 1] := List.getElem?_eq_getElem more
      have next := (other (m + 1) more (by omega)).trans (attends.ahead (m + 1) (by omega) more)
      exact .inr ⟨_, next.trans call, .fresh call (fresh _ (List.getElem_mem more)) pushed⟩
    · exact .inl ⟨by omega, pushed⟩
  · rcases Nat.lt_succ_iff_lt_or_eq.1 less with earlier | rfl
    · exact (attends.covered k earlier call phase).trans (finished phase)
    · exact covers call phase

theorem Attends.stay (attends : Attends stage calls m j f) (backed : Backed calls.length g) {u : Thread}
    (threads : ∀ k < calls.length, g.threads[k]? = (f.threads.set m u)[k]?) (calling : Calling stage calls m j' g u)
    (finished : j'.finished = j.finished) : Attends stage calls m j' g := by
  have lt := calling.lt
  have present : m < f.threads.length := Nat.lt_of_lt_of_le lt attends.backed.length
  have other (k : Nat) (below : k < calls.length) (apart : k ≠ m) : g.threads[k]? = f.threads[k]? := by
    rw [threads k below, List.getElem?_set_ne apart.symm]
  refine ⟨backed, fun k less => ?_, fun k greater below => ?_, .inr ⟨u, ?_, calling⟩, fun k less call phase => ?_⟩
  · rw [other k (by omega) (by omega)]
    exact attends.past k less
  · rw [other k below (by omega)]
    exact attends.ahead k greater below
  · rw [threads m lt, List.getElem?_set_self present]
  · rw [finished]
    exact attends.covered k less call phase

end Program

/-! ## Steps of the program -/

section Attends

variable {stage : Stage} {calls : List Thread} {root : Site} {behindSites : List Site} {base : Buckets}
  {leader? : Option (Nat × Cycle)} {m i worker : Nat} {j j' : Journal} {f g : Floor} {t : Thread}

theorem Committing.beside (commits : Committing calls.length f t) (beside : Beside calls.length j f j' g) :
    Committing calls.length g t := by
  cases commits with
  | arriving => exact .arriving
  | waiting generation waits =>
    exact .waiting generation (waits.elim (beside.waits generation) fun calm => .inr (beside.calm calm))
  | rechecking calm => exact .rechecking (beside.calm calm)
  | leading cycle drained => exact .leading cycle fun phase past => beside.queues phase (drained phase past)

/-- A step of a background commit leaves the program where it is. -/
theorem Attends.beside (attends : Attends stage calls m j f) (beside : Beside calls.length j f j' g) :
    Attends stage calls m j' g := by
  have pushes {k : Nat} (pushed : Pushed stage calls k j) : Pushed stage calls k j' := by
    intro phase
    rw [beside.pushed]
    exact pushed phase
  refine ⟨beside.backed, fun k less => ?_, fun k greater below => ?_, ?_, fun k less call phase => ?_⟩
  · rcases attends.here with ⟨rfl, -⟩ | ⟨t, -, calling⟩
    · rw [beside.threads k less]
      exact attends.past k less
    · rw [beside.threads k (less.trans calling.lt)]
      exact attends.past k less
  · rw [beside.threads k below]
    exact attends.ahead k greater below
  · rcases attends.here with ⟨last, pushed⟩ | ⟨t, found, calling⟩
    · exact .inl ⟨last, pushes pushed⟩
    refine .inr ⟨t, (beside.threads m calling.lt).trans found, ?_⟩
    cases calling with
    | pushing call pushed => exact .pushing call (pushes pushed)
    | scheduling queued call pushed => exact .scheduling queued call (pushes pushed)
    | committing call pushed commits => exact .committing call (pushes pushed) (commits.beside beside)
  · exact (attends.covered k less call phase).trans (beside.finished phase)

/-- Where nothing is queued and no cycle is running, everything that was queued is in finished batches. -/
theorem Manned.finished_eq (manned : Manned root behindSites base none j f) {phase : Phase}
    (drained : f.rootQueues.entries phase = []) : j.pushed.entries phase = j.finished.flatMap (·.entries phase) := by
  rw [manned.split phase, drained, List.append_nil, manned.drained_eq phase]

/-- While background commits are calm and the program does not lead, nobody does. -/
theorem Attends.leaderless (attends : Attends root.stage calls m j f)
    (manned : Manned root behindSites base leader? j f) (fresh : ∀ call ∈ calls, call.IsCall)
    (calm : Calm calls.length f) (found : f.threads[m]? = some t) (quiet : t.cycle? = none) : leader? = none := by
  cases leader? with
  | none => rfl
  | some leader =>
    obtain ⟨k, cycle⟩ := leader
    have leads := (manned.leads k cycle).2 rfl
    rw [Floor.cycle?_eq] at leads
    exfalso
    -- A call that is over or has not begun does not lead, and calm background commits do not either.
    rcases Nat.lt_trichotomy k m with past | rfl | ahead
    · rw [attends.past k past] at leads
      cases leads
    · rw [found, Option.bind_some, quiet] at leads
      cases leads
    rcases Nat.lt_or_ge k calls.length with below | behind
    · rw [attends.ahead k ahead below, List.getElem?_eq_getElem below, Option.bind_some,
        (fresh _ (List.getElem_mem below)).cycle?_eq_none] at leads
      cases leads
    · obtain ⟨u, at_, leading⟩ := Option.bind_eq_some_iff.1 leads
      rcases calm k u behind at_ with rfl | ⟨result, rfl⟩ <;> cases leading

theorem Floor.threads_set_below {n : Nat} (threads : g.threads = f.threads.set m t) :
    ∀ k < n, g.threads[k]? = (f.threads.set m t)[k]? :=
  fun k _ => by rw [threads]

theorem Attends.stay_put (attends : Attends stage calls m j f) {u : Thread}
    (calling : Calling stage calls m j (f.put m u) u) : Attends stage calls m j (f.put m u) :=
  attends.stay (attends.backed.front calling.lt rfl rfl attends.backed.last) (Floor.threads_set_below rfl) calling rfl

/-- A document is queued, unless it is rejected and the call is over. -/
theorem Attends.push (attends : Attends root.stage calls m j f) (manned : Manned root behindSites base leader? j f)
    (fresh : ∀ call ∈ calls, call.IsCall) {phase : Phase} {doc : Document}
    (found : f.threads[m]? = some (.pushing phase doc)) (call : calls[m]? = some (.pushing phase doc))
    (pushed : Pushed root.stage calls m j) :
    ∃ m', Attends root.stage calls m' (j.note f m) ((f.push phase doc).2.put m (f.push phase doc).1) := by
  have lt := (List.getElem?_eq_some_iff.1 call).1
  have backed := attends.backed
  obtain ⟨q, qs, queues⟩ := List.exists_cons_of_length_eq_add_one manned.queues
  obtain ⟨n, w', -, -, moved⟩ := Floor.push_eq manned.sites queues phase doc
  have entry : f.entry doc = root.stage.map? doc := by
    rw [Floor.entry, Ingestor.rootStage?, manned.sites]
    rfl
  rw [Journal.note_pushing found, entry, moved]
  cases made : root.stage.map? doc with
  | none =>
    refine ⟨m + 1, attends.next fresh lt (backed.front lt rfl rfl backed.last) (Floor.threads_set_below rfl)
      (made ▸ pushed.push call) (fun phase => List.prefix_refl _) fun commits => ?_⟩
    rw [call] at commits
    cases commits
  | some entry =>
    exact ⟨m, attends.stay (backed.front lt rfl rfl backed.last) (Floor.threads_set_below rfl)
      (.scheduling n call (made ▸ pushed.push call)) rfl⟩

/-- The call that has queued its document is over, and may have started a background commit. -/
theorem Attends.schedule (attends : Attends stage calls m j f) (fresh : ∀ call ∈ calls, call.IsCall) {phase : Phase}
    {doc : Document} (call : calls[m]? = some (.pushing phase doc)) (pushed : Pushed stage calls (m + 1) j)
    (queued : Nat) : Attends stage calls (m + 1) j ((f.put m (.ended (.ok ()))).schedule queued) := by
  have lt := (List.getElem?_eq_some_iff.1 call).1
  have backed := attends.backed
  have commits : calls[m]? = some .commit → ∀ phase,
      queuedBy stage phase (calls.take m) <+: j.finished.flatMap (·.entries phase) := by
    intro commits
    rw [call] at commits
    cases commits
  have front : Backed calls.length (f.put m (.ended (.ok ()))) := backed.front lt rfl rfl backed.last
  rw [Floor.schedule]
  split
  · next due =>
    have idle : (f.put m (.ended (.ok ()))).ingestor.backgroundPending = false := by
      simp only [Ingestor.isDue, Bool.and_eq_true, Bool.not_eq_true'] at due
      exact due.2
    -- The new thread stands behind all calls.
    refine attends.next fresh lt (front.spawn idle) (fun k below => ?_) pushed (fun _ => List.prefix_refl _) commits
    have inside : k < (f.threads.set m (.ended (.ok ()))).length := by
      rw [List.length_set]
      exact Nat.lt_of_lt_of_le below backed.length
    exact List.getElem?_append_left inside
  · exact attends.next fresh lt front (Floor.threads_set_below rfl) pushed (fun _ => List.prefix_refl _) commits

section Commit

variable (attends : Attends root.stage calls m j f) (manned : Manned root behindSites base leader? j f)
  (fresh : ∀ call ∈ calls, call.IsCall) (call : calls[m]? = some .commit) (pushed : Pushed root.stage calls m j)

include attends call pushed

/-- A call to commit waits for the cycle that runs, or starts one that has drained nothing yet. -/
theorem Attends.arrive (found : f.threads[m]? = some (.arriving false)) :
    Attends root.stage calls m (j.note f m) ((f.arrive false).2.put m (f.arrive false).1) := by
  have lt := (List.getElem?_eq_some_iff.1 call).1
  have backed := attends.backed
  rw [Journal.note_idle found trivial]
  cases running : f.gate.running with
  | true =>
    rw [Floor.arrive_of_running running]
    refine attends.stay_put (.committing call pushed (.waiting _ (.inl ?_)))
    show (f.gate.running && f.gate.generation == f.gate.generation) = true
    rw [running, beq_self_eq_true, Bool.and_self]
  | false =>
    rw [Floor.arrive_of_free running]
    exact attends.stay (backed.front lt rfl rfl backed.last) (Floor.threads_set_below rfl)
      (.committing call pushed (.leading _ fun phase past => False.elim past)) rfl

include manned

/-- A call to commit goes on with its cycle, and what that drains stays empty. -/
theorem Attends.lead {cycle : Cycle} (found : f.threads[m]? = some (.leading false cycle))
    (goes : ∀ ended, cycle ≠ .ending ended)
    (drained : ∀ phase, cycle.Past phase → f.rootQueues.entries phase = []) :
    Attends root.stage calls m (j.note f m)
      ((f.cycleStep worker cycle).2.put m (.leading false (f.cycleStep worker cycle).1)) := by
  have lt := (List.getElem?_eq_some_iff.1 call).1
  have backed := attends.backed
  obtain ⟨cycle', qs', w', moved, -⟩ := manned.turn found worker
  obtain ⟨cycle'', h, moved', -, -, past⟩ := manned.cycleStep found goes worker
  obtain ⟨rfl, rfl⟩ := Prod.mk.inj (moved.symm.trans moved')
  rw [Journal.note_leading found goes, moved]
  refine attends.stay (backed.front lt rfl rfl backed.last) (Floor.threads_set_below rfl)
    (.committing call pushed (.leading _ fun phase reached => ?_)) rfl
  show (cycle.left f.rootQueues).entries phase = []
  rcases past phase reached with earlier | ⟨touched, rfl⟩
  · exact cycle.entries_left (drained phase earlier)
  · exact Queues.entries_drop_self _ phase

include fresh

/-- A call to commit has led a cycle, and everything that was queued before is in finished batches. -/
theorem Attends.land {ended : Except (Failure Error) Nat}
    (found : f.threads[m]? = some (.leading false (.ending ended)))
    (drained : ∀ phase, f.rootQueues.entries phase = []) :
    Attends root.stage calls (m + 1) (j.note f m) ((f.land false ended).2.put m (f.land false ended).1) := by
  have lt := (List.getElem?_eq_some_iff.1 call).1
  obtain ⟨⟨count, rfl⟩, manned'⟩ := manned.land found
  rw [Journal.note_ending found] at manned' ⊢
  refine attends.next fresh lt (attends.backed.front lt rfl rfl rfl) (Floor.threads_set_below rfl)
    (pushed.succ call fun _ => rfl) (fun phase => ?_) fun _ phase => ?_
  · rw [List.flatMap_append]
    exact List.prefix_append _ _
  · have all := manned'.finished_eq (drained phase)
    exact (pushed phase).symm.trans all ▸ List.prefix_refl _

/-- A call to commit goes on, or it is over and what was queued before it is in finished batches. -/
theorem Attends.commit (found : f.threads[m]? = some t) (commits : Committing calls.length f t)
    (moves : f.Moves m worker t g) : ∃ m', Attends root.stage calls m' (j.note f m) g := by
  have lt := (List.getElem?_eq_some_iff.1 call).1
  have backed := attends.backed
  cases commits with
  | arriving =>
    cases moves with
    | arrive => exact ⟨m, attends.arrive call pushed found⟩
  | waiting generation waits =>
    cases moves with
    | wake _ told =>
    obtain ⟨free, rfl⟩ := backed.told told
    -- The cycle is over that the call has waited for.
    have calm : Calm calls.length f := waits.resolve_left (by rw [free]; exact Bool.false_ne_true)
    rw [Journal.note_idle found trivial]
    exact ⟨m, attends.stay_put (.committing call pushed (.rechecking (calm.front lt rfl)))⟩
  | rechecking calm =>
    rw [Journal.note_idle found trivial]
    cases moves with
    | again _ _ => exact ⟨m, attends.stay_put (.committing call pushed .arriving)⟩
    | stop _ drained =>
      -- Nobody leads, so what has left the queues is in finished batches.
      obtain rfl := attends.leaderless manned fresh calm found rfl
      refine ⟨m + 1, attends.next fresh lt (backed.front lt rfl rfl backed.last) (Floor.threads_set_below rfl)
        (pushed.succ call fun _ => rfl) (fun _ => List.prefix_refl _) fun _ phase => ?_⟩
      rw [← pushed phase, manned.finished_eq (Queues.entries_of_size drained phase)]
  | leading cycle drained =>
    cases moves with
    | lead _ goes => exact ⟨m, attends.lead manned call pushed found goes drained⟩
    | land _ ended => exact ⟨m + 1, attends.land manned fresh call pushed found fun phase => drained phase trivial⟩

end Commit

/-- Every step of the call that the program has come to. -/
theorem Attends.own (attends : Attends root.stage calls m j f) (manned : Manned root behindSites base leader? j f)
    (fresh : ∀ call ∈ calls, call.IsCall) (found : f.threads[m]? = some t)
    (calling : Calling root.stage calls m j f t) (moves : f.Moves m worker t g) :
    ∃ m', Attends root.stage calls m' (j.note f m) g := by
  cases calling with
  | pushing call pushed =>
    cases moves with
    | push => exact attends.push manned fresh found call pushed
  | scheduling queued call pushed =>
    cases moves with
    | schedule =>
    rw [Journal.note_idle found trivial]
    exact ⟨m + 1, attends.schedule fresh call pushed queued⟩
  | committing call pushed commits => exact attends.commit manned fresh call pushed found commits moves

end Attends

/-! ## Runs of the program -/

section Runs

variable {stage : Stage} {calls : List Thread} {root : Site} {behindSites : List Site} {base : Buckets}
  {leader? : Option (Nat × Cycle)} {m i worker : Nat} {j : Journal} {f g : Floor}

/-- Every step in turn preserves how far the program has come, or takes it further. -/
theorem Attends.step (attends : Attends root.stage calls m j f) (manned : Manned root behindSites base leader? j f)
    (fresh : ∀ call ∈ calls, call.IsCall) (turn : i < calls.length → f.returned i = true)
    (stepped : f.step? i worker = some g) : ∃ m', Attends root.stage calls m' (j.note f i) g := by
  rcases Nat.lt_or_ge i calls.length with front | behind
  · obtain ⟨t, found, moves⟩ := Floor.moves_of_step? stepped
    -- A thread that has returned makes no step, and one behind the call would be out of turn.
    rcases attends.here with ⟨rfl, -⟩ | ⟨u, at_, calling⟩
    · rw [attends.past i front] at found
      cases found
      cases moves
    rcases Nat.lt_trichotomy i m with past | rfl | ahead
    · rw [attends.past i past] at found
      cases found
      cases moves
    · obtain rfl := Option.some.inj (at_.symm.trans found)
      exact attends.own manned fresh found calling moves
    · obtain ⟨result, ended⟩ := Floor.returned_iff.1 (turn front) m ahead
      exact absurd (Option.some.inj (at_.symm.trans ended)) (calling.not_ended result)
  · exact ⟨m, attends.beside (attends.backed.beside manned behind stepped)⟩

/-- No call that has returned has failed. -/
theorem Attends.ok (attends : Attends stage calls m j f) (fresh : ∀ call ∈ calls, call.IsCall) {k : Nat}
    (below : k < calls.length) {result : Except (Failure Error) Unit}
    (found : f.threads[k]? = some (.ended result)) : result = .ok () := by
  have past (earlier : k < m) : result = .ok () := by
    rw [attends.past k earlier] at found
    cases found
    rfl
  rcases attends.here with ⟨rfl, -⟩ | ⟨t, here, calling⟩
  · exact past below
  rcases Nat.lt_trichotomy k m with earlier | rfl | ahead
  · exact past earlier
  · exact absurd (Option.some.inj (here.symm.trans found)) (calling.not_ended result)
  · rw [attends.ahead k ahead below, List.getElem?_eq_getElem below] at found
    have call := fresh _ (List.getElem_mem below)
    rw [Option.some.inj found] at call
    cases call

theorem Attends.start {t : Ingestor.Session} (fresh : ∀ call ∈ calls, call.IsCall) :
    Attends stage calls 0 {} (.start t calls) := by
  have pushed : Pushed stage calls 0 {} := fun phase => by cases phase <;> rfl
  have none (k : Nat) (behind : calls.length ≤ k) : (Floor.start t calls).threads[k]? = none :=
    List.getElem?_eq_none behind
  refine ⟨⟨Nat.le_refl _, fun k u behind found => ?_, fun k u behind found => ?_, rfl⟩, fun k less => ?_,
    fun k _ _ => rfl, ?_, fun k less => ?_⟩
  · rw [none k behind] at found
    cases found
  · rw [none k behind] at found
    cases found
  · exact absurd less (Nat.not_lt_zero k)
  · cases calls with
    | nil => exact .inl ⟨rfl, pushed⟩
    | cons call rest => exact .inr ⟨call, rfl, .fresh rfl (fresh call List.mem_cons_self) pushed⟩
  · exact absurd less (Nat.not_lt_zero k)

theorem Attends.pushes (attends : Attends stage calls m j f) :
    Pushed stage calls m j ∨ ∃ phase doc, calls[m]? = some (.pushing phase doc) ∧ Pushed stage calls (m + 1) j := by
  rcases attends.here with ⟨-, pushed⟩ | ⟨t, -, calling⟩
  · exact .inl pushed
  · cases calling with
    | pushing _ pushed | committing _ pushed => exact .inl pushed
    | scheduling _ call pushed => exact .inr ⟨_, _, call, pushed⟩

/-- The last call to commit sees to it that everything is in finished batches. -/
theorem Attends.done (attends : Attends root.stage calls calls.length j f)
    (manned : Manned root behindSites base leader? j f) (pushed : Pushed root.stage calls calls.length j)
    (ends : calls.getLast? = some .commit) (phase : Phase) :
    j.finished.flatMap (·.entries phase) = queuedBy root.stage phase calls ∧ j.running.entries phase = [] := by
  obtain ⟨before, rfl⟩ := List.getLast?_eq_some_iff.1 ends
  have call : (before ++ [Thread.commit])[before.length]? = some .commit := List.getElem?_concat_length
  have covered := attends.covered before.length (by simp) call phase
  have silent : queuedBy root.stage phase (before ++ [.commit]) = queuedBy root.stage phase before := by
    rw [queuedBy, List.filterMap_append]
    exact List.append_nil _
  have split := manned.split phase
  rw [pushed phase, List.take_length, silent, Journal.drained, List.append_assoc] at split
  rw [List.take_left] at covered
  rw [silent]
  have least := covered.length_le
  have lengths := congrArg List.length split
  simp only [List.length_append] at lengths
  exact ⟨(covered.eq_of_length_le (by omega)).symm, List.length_eq_zero_iff.1 (by omega)⟩

/-! ## Programs that add first -/

theorem queuedBy_append (phase : Phase) (before after : List Thread) :
    queuedBy stage phase (before ++ after) = queuedBy stage phase before ++ queuedBy stage phase after :=
  List.filterMap_append

theorem queuedBy_of_none {phase : Phase} (none : ∀ call ∈ calls, ∀ doc, call ≠ .pushing phase doc) :
    queuedBy stage phase calls = [] := by
  refine List.filterMap_eq_nil_iff.2 fun call mem => ?_
  cases call with
  | pushing which doc =>
    refine if_neg ?_
    rintro rfl
    exact none _ mem doc rfl
  | scheduling _ | arriving _ | waiting _ _ | rechecking _ | leading _ _ | clearing | ended _ => rfl

/-- Calls before and after one to commit, of which none but the earlier ones add and none but the later
ones retract. -/
structure Orderly (before after : List Thread) : Prop where
  fresh : ∀ call ∈ before ++ .commit :: after, call.IsCall
  adds : ∀ call ∈ before, ∀ doc, call ≠ .uningest doc
  retracts : ∀ call ∈ after, ∀ doc, call ≠ .ingest doc

section Order

variable {before after : List Thread} (orderly : Orderly before after)

include orderly

/-- What a cycle has drained adds nothing once there was something to retract. -/
theorem Attends.order (attends : Attends root.stage (before ++ .commit :: after) m j f)
    (manned : Manned root behindSites base leader? j f) : j.pushed.retractions = [] ∨ j.running.additions = [] := by
  have early : queuedBy root.stage .retract (before ++ [.commit]) = [] := by
    refine queuedBy_of_none fun call mem doc => ?_
    rcases List.mem_append.1 mem with inside | last
    · exact orderly.adds call inside doc
    · rw [List.mem_singleton.1 last]
      exact fun same => by cases same
  have late : queuedBy root.stage .add (.commit :: after) = [] := by
    refine queuedBy_of_none fun call mem doc => ?_
    rcases List.mem_cons.1 mem with rfl | inside
    · exact fun same => by cases same
    · exact orderly.retracts call inside doc
  obtain ⟨k, least, most, pushed⟩ : ∃ k, m ≤ k ∧ k ≤ m + 1 ∧
      Pushed root.stage (before ++ .commit :: after) k j := by
    rcases attends.pushes with pushed | ⟨_, _, -, pushed⟩
    · exact ⟨m, Nat.le_refl m, Nat.le_succ m, pushed⟩
    · exact ⟨m + 1, Nat.le_succ m, Nat.le_refl _, pushed⟩
  rcases Nat.lt_or_ge before.length m with committed | waiting
  · -- The commit has seen to everything that is ever added.
    right
    have covered := attends.covered before.length committed (by simp) .add
    have most := queuedBy_prefix root.stage .add (List.take_prefix k (before ++ .commit :: after))
    rw [queuedBy_append, late, List.append_nil, ← pushed .add, manned.split .add, Journal.drained] at most
    rw [List.take_left] at covered
    have lengths := most.length_le
    have lengths' := covered.length_le
    simp only [List.length_append] at lengths
    exact List.length_eq_zero_iff.1 (show (j.running.entries .add).length = 0 by omega)
  · -- What was queued so far is queued by the calls up to the commit.
    left
    have least := queuedBy_prefix root.stage .retract
      (List.take_prefix_take_left (l := before ++ .commit :: after) (show k ≤ before.length + 1 by omega))
    have whole : (before ++ Thread.commit :: after).take (before.length + 1) = before ++ [.commit] := by
      rw [List.take_append, List.take_of_length_le (Nat.le_succ _), Nat.add_sub_cancel_left]
      rfl
    rw [whole, early, ← pushed .retract] at least
    exact List.prefix_nil.1 least

omit orderly in
theorem addsFirst_note (manned : Manned root behindSites base leader? j f) (first : AddsFirst j.finished)
    (order : j.pushed.retractions = [] ∨ j.running.additions = []) (k : Nat) : AddsFirst (j.note f k).finished := by
  rw [Journal.note]
  split
  · exact first
  · rcases order with unretracted | none
    · -- No batch can retract what was never queued.
      have split := manned.split .retract
      rw [show j.pushed.entries .retract = [] from unretracted, Journal.drained] at split
      obtain ⟨earlier, last⟩ := List.append_eq_nil_iff.1 (List.append_eq_nil_iff.1 split.symm).1
      refine .adds fun batch mem => ?_
      rcases List.mem_append.1 mem with inside | new
      · exact List.flatMap_eq_nil_iff.1 earlier batch inside
      · rw [List.mem_singleton.1 new]
        exact last
    · exact .retracts first none
  · exact first
  · exact first

/-- What holds at any moment of a program that adds first. -/
structure Proceeds (root : Site) (behindSites : List Site) (start : Store) (calls : List Thread) (j : Journal)
    (f : Floor) : Prop where
  manned : ∃ leader?, Manned root behindSites (start.buckets root.scope) leader? j f
  charted : Charted root behindSites start j f
  attends : ∃ m, Attends root.stage calls m j f
  first : AddsFirst j.finished

variable {config : Config} {t : Ingestor.Session}
  (ingestor : t.1 = { sites := root :: behindSites, queues := {} :: idle behindSites, config })
  (plan : t.2.plan = .never) (placed : Placed (root :: behindSites) t.2.store)
  (sorted : ∀ id, (t.2.store.buckets id).Sorted) (program : calls = before ++ .commit :: after)
  {schedule : Floor.Schedule} (turns : (Floor.start t calls).inTurn calls.length schedule = true)
  (ran : (Floor.start t calls).run? schedule = some g)

include ingestor plan placed sorted program turns ran

theorem Proceeds.run :
    Proceeds root behindSites t.2.store calls (({} : Journal).keep (.start t calls) schedule) g := by
  subst program
  have fresh := orderly.fresh
  refine Floor.run?_induction_inTurn (fun j f g i worker proceeds turn stepped => ?_)
    ⟨⟨none, Manned.start ingestor plan placed fresh⟩, Charted.fresh (congrArg Ingestor.queues ingestor) fresh,
      ⟨0, Attends.start fresh⟩, .adds fun _ mem => by cases mem⟩ turns ran
  obtain ⟨⟨leader?, manned⟩, charted, ⟨m, attends⟩, first⟩ := proceeds
  exact ⟨manned.step stepped, charted.step manned placed sorted stepped, attends.step manned fresh turn stepped,
    addsFirst_note manned first (attends.order orderly manned) i⟩

/-- No call of such a program fails. -/
theorem Floor.ended_inTurn {k : Nat} (below : k < calls.length) {result : Except (Failure Error) Unit}
    (found : g.threads[k]? = some (.ended result)) : result = .ok () := by
  obtain ⟨m, attends⟩ := (Proceeds.run orderly ingestor plan placed sorted program turns ran).attends
  have fresh := program ▸ orderly.fresh
  exact attends.ok fresh below found

/-- A program that adds first and ends with a commit leaves of the store what batches that add first
make of it, which together have the entries of all calls, wherever background commits go. -/
theorem Floor.run_inTurn (ends : calls.getLast? = some .commit) (returned : g.returned calls.length = true) :
    g.ingestor.sites = root :: behindSites ∧ g.world.plan = .never ∧
      ∃ batches, Batched root behindSites t.2.store batches g.world.store ∧ AddsFirst batches ∧
        ∀ phase, (pool batches).entries phase = queuedBy root.stage phase calls := by
  obtain ⟨⟨leader?, manned⟩, charted, ⟨m, attends⟩, first⟩ :=
    Proceeds.run orderly ingestor plan placed sorted program turns ran
  obtain ⟨rfl, pushed⟩ : m = calls.length ∧ Pushed root.stage calls m _ := by
    rcases attends.here with last | ⟨u, found, calling⟩
    · exact last
    · obtain ⟨result, ended⟩ := Floor.returned_iff.1 returned m calling.lt
      exact absurd (Option.some.inj (found.symm.trans ended)) (calling.not_ended result)
  -- The running cycle has drained nothing, so the store is what the finished batches make of it.
  have done := attends.done manned pushed ends
  have blank : (({} : Journal).keep (start t calls) schedule).running = {} :=
    Queues.eq_of_entries fun phase => (done phase).2.trans (by cases phase <;> rfl)
  exact ⟨manned.sites, manned.plan, _, charted.store_of_blank blank, first,
    fun phase => (entries_pool _ phase).trans (done phase).1⟩

end Order

end Runs

end Concurrent

end Rollup
