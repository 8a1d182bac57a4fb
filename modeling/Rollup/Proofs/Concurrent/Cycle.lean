import Rollup.Concurrent.Cycle
import Rollup.Proofs.Concurrent.Crew
import Rollup.Proofs.Ingest.Links

/-!
# Cycles in steps

A cycle drains a batch, first retractions and then additions, and takes the buckets of the root from
what they were to `replay` of the batch.  `Underway` tells how far a leader has come; every step of a
leader keeps it (`Underway.turn`), whatever has been queued in the meantime.
-/

namespace Rollup

namespace Queues

theorem entries_push (q : Queues) (entry : Key × Document) (phase which : Phase) :
    (q.push entry phase).entries which = q.entries which ++ if which = phase then [entry] else [] := by
  cases phase <;> cases which <;> simp [push, entries]

/-- A batch with what a phase drains from the queues. -/
def draw (batch q : Queues) : Phase → Queues
  | .retract => { batch with retractions := batch.retractions ++ q.retractions }
  | .add => { batch with additions := batch.additions ++ q.additions }

/-- Nothing was drained yet in a phase and the phases after it. -/
def BlankFrom (batch : Queues) : Phase → Prop
  | .retract => batch = {}
  | .add => batch.additions = []

/-- Nothing was drained yet in the phases after this one. -/
def BlankAfter (batch : Queues) : Phase → Prop
  | .retract => batch.BlankFrom .add
  | .add => True

theorem BlankFrom.draw {batch : Queues} {phase : Phase} (blank : batch.BlankFrom phase) (q : Queues) :
    (batch.draw q phase).entries phase = q.entries phase ∧ (batch.draw q phase).BlankAfter phase := by
  cases phase with
  | retract =>
    obtain rfl : batch = {} := blank
    exact ⟨rfl, rfl⟩
  | add =>
    have none : batch.additions = [] := blank
    refine ⟨?_, trivial⟩
    show batch.additions ++ q.additions = q.additions
    rw [none, List.nil_append]

end Queues

namespace Ingest

/-- The buckets after the retractions of a batch. -/
def retracted (stage : Stage) (b : Buckets) (batch : Queues) : Buckets :=
  afterPhase stage .retract b (groupByKey batch.retractions)

/-- The buckets after a batch. -/
def replay (stage : Stage) (b : Buckets) (batch : Queues) : Buckets :=
  afterPhase stage .add (retracted stage b batch) (groupByKey batch.additions)

/-- The buckets when a phase of a batch begins. -/
def beforePhase (stage : Stage) (b : Buckets) (batch : Queues) : Phase → Buckets
  | .retract => b
  | .add => retracted stage b batch

theorem Settled.length_queues {sites : List Site} {qs qs' : List Queues} {s s' : Store}
    (settled : Settled sites qs s qs' s') : qs'.length = sites.length := by
  induction settled with
  | nil => rfl
  | cons _ _ _ _ _ ih => exact congrArg (· + 1) ih

end Ingest

namespace Concurrent

open Ingest

namespace Cycle

/-- What a step of a cycle leaves in the queues of the root. -/
def left (q : Queues) : Cycle → Queues
  | .draining phase _ => q.drop phase
  | _ => q

/-- What has been drained after a step of a cycle. -/
def drawn (batch q : Queues) : Cycle → Queues
  | .draining phase _ => batch.draw q phase
  | _ => batch

/-- The phases whose queues a cycle has drained. -/
def Past : Cycle → Phase → Prop
  | .draining .retract _, _ => False
  | .draining .add _, phase | .revising .retract _ _, phase => phase = .retract
  | .revising .add _ _, _ | .flushing _, _ | .ending _, _ => True

theorem past_revising {which phase : Phase} {touched : Nat} {crew : Crew}
    (past : (revising which touched crew).Past phase) : phase = which ∨ (draining which touched).Past phase := by
  cases which with
  | retract => exact .inl past
  | add => cases phase with
    | retract => exact .inr rfl
    | add => exact .inl rfl

/-- Moving on from a phase drains nothing. -/
theorem past_after {which phase : Phase} {touched touched' : Nat} {crew : Crew}
    (past : (after which touched).Past phase) : (revising which touched' crew).Past phase := by
  cases which with
  | retract => exact past
  | add => trivial

/-- What follows when the entries of a phase have been drained. -/
def onward (workers : Nat) (phase : Phase) (touched : Nat) (entries : List (Key × Document)) : Cycle :=
  if entries.isEmpty then after phase touched else revising phase touched (.ofGroups workers (groupByKey entries))

theorem past_onward {workers : Nat} {which phase : Phase} {touched : Nat} {entries : List (Key × Document)}
    (past : (onward workers which touched entries).Past phase) :
    phase = which ∨ (draining which touched).Past phase := by
  rw [onward] at past
  split at past
  · exact past_revising (@past_after _ _ _ touched ⟨false, []⟩ past)
  · exact past_revising past

/-- What is drained is taken out of the queues, and nothing else. -/
theorem entries_drawn (cycle : Cycle) (batch q : Queues) (phase : Phase) :
    (cycle.drawn batch q).entries phase ++ (cycle.left q).entries phase =
      batch.entries phase ++ q.entries phase := by
  cases cycle with
  | draining which touched => cases which <;> cases phase <;> simp [drawn, left, Queues.draw, Queues.drop, Queues.entries]
  | revising _ _ _ | flushing _ | ending _ => rfl

end Cycle

namespace Cycle

/-- What one step of a cycle makes of the cycle, of the queues behind the root and of the store, with
these queues at the root. -/
inductive Turn (workers worker : Nat) (site : Site) (behindSites : List Site) (plan : FaultPlan) (q : Queues) :
    Cycle → List Queues → Store → Cycle → List Queues → Store → Prop
  | drains (phase : Phase) (touched : Nat) {qs : List Queues} {s : Store} :
      Turn workers worker site behindSites plan q (.draining phase touched) qs s
        (.onward workers phase touched (q.entries phase)) qs s
  | works (phase : Phase) (touched : Nat) {crew crew' : Crew} {qs : List Queues} {s s' : Store}
      (call : Crew.Call site phase plan worker s crew s' crew') :
      Turn workers worker site behindSites plan q (.revising phase touched crew) qs s
        (.revising phase touched crew') qs s'
  | forwards (phase : Phase) (touched : Nat) {crew : Crew} {p : Progress} {qs : List Queues} {s : Store}
      (finished : crew.result? = some (.ok p)) :
      Turn workers worker site behindSites plan q (.revising phase touched crew) qs s
        (.after phase (touched + p.revisions.length)) (handOn behindSites p.revisions qs) s
  | flushes (touched : Nat) {qs qs' : List Queues} {s s' : Store} (settled : Settled behindSites qs s qs' s') :
      Turn workers worker site behindSites plan q (.flushing touched) qs s (.ending (.ok touched)) qs' s'
  | rests (ended : Except (Failure Error) Nat) {qs : List Queues} {s : Store} :
      Turn workers worker site behindSites plan q (.ending ended) qs s (.ending ended) qs s

/-- Nothing has gone wrong with the crew of a cycle when it has ended. -/
def Fine : Cycle → Prop
  | .revising _ _ crew => ∀ ended, crew.result? = some ended → ∃ p, ended = .ok p ∧ p.failed = none
  | _ => True

theorem run_step {cycle : Cycle} (fine : cycle.Fine) (workers worker : Nat) (site : Site) {behindSites : List Site}
    (q : Queues) {qs : List Queues} {w : World} (ready : Ready behindSites w) (length : qs.length = behindSites.length) :
    ∃ cycle' qs' w', (cycle.step workers site behindSites worker).run (q :: qs) w =
        (.ok cycle', cycle.left q :: qs', w') ∧ w'.plan = w.plan ∧ qs'.length = behindSites.length ∧
      Turn workers worker site behindSites w.plan q cycle qs w.store cycle' qs' w'.store := by
  cases cycle with
  | draining phase touched =>
    have ran : ((Cycle.draining phase touched).step workers site behindSites worker).run (q :: qs) w =
        (.ok (.onward workers phase touched (q.entries phase)), q.drop phase :: qs, w) := by
      simp only [Cycle.step, Cycle.onward, Action.run_bind, run_drain]
      split <;> rfl
    exact ⟨_, qs, w, ran, rfl, length, .drains phase touched⟩
  | revising phase touched crew =>
    -- Either a worker still has a call to make, or the phase is over.
    cases finished : crew.result? with
    | none =>
      obtain ⟨crew', w', ran, plan, call⟩ := crew.run_call site phase worker (q :: qs) w
      refine ⟨.revising phase touched crew', qs, w', ?_, plan, length, .works phase touched call⟩
      simp only [Cycle.step, finished, Action.run_bind, ran]
      rfl
    | some ended =>
      obtain ⟨p, rfl, well⟩ := fine ended finished
      obtain ⟨w', plan, store, ran⟩ := run_forward (ε := Error) p.revisions q length w
      refine ⟨.after phase (touched + p.revisions.length), handOn behindSites p.revisions qs, w', ?_, plan,
        (length_handOn behindSites _ _).trans length, by
          rw [store]
          exact .forwards phase touched finished⟩
      simp only [Cycle.step, finished, Action.run_bind, Action.run_attempt, finishPhase, ran, well]
      rfl
  | flushing touched =>
    have readyNow : Ready behindSites { w with calls := w.calls + 1 } := ready.of_eq rfl rfl
    obtain ⟨qs', w', ran, plan, settled⟩ := run_commitBehind (settles workers behindSites) q length readyNow
    refine ⟨_, qs', w', ?_, plan, settled.length_queues, .flushes touched settled⟩
    simp only [Cycle.step, Action.run_bind, Action.run_attempt, run_accessCommit ready.mild, ran]
    rfl
  | ending ended => exact ⟨_, qs, w, rfl, rfl, length, .rests ended⟩

end Cycle

/-- How far a cycle has come that has drained a batch so far: `base` are the buckets of the root as
they were, and `b` as they are now. -/
inductive Underway (stage : Stage) (base b : Buckets) (batch : Queues) : Cycle → Prop
  | draining {phase : Phase} (touched : Nat) (blank : batch.BlankFrom phase)
      (same : ∀ key, b.get? key = (beforePhase stage base batch phase).get? key) :
      Underway stage base b batch (.draining phase touched)
  | revising {phase : Phase} (touched : Nat) {crew : Crew} (blank : batch.BlankAfter phase)
      (work : AtWork stage phase (beforePhase stage base batch phase) (groupByKey (batch.entries phase)) crew b) :
      Underway stage base b batch (.revising phase touched crew)
  | flushing (touched : Nat) (same : ∀ key, b.get? key = (replay stage base batch).get? key) :
      Underway stage base b batch (.flushing touched)
  | ending (touched : Nat) (same : ∀ key, b.get? key = (replay stage base batch).get? key) :
      Underway stage base b batch (.ending (.ok touched))

namespace Underway

variable {base b : Buckets} {batch : Queues}

theorem start {stage : Stage} (same : ∀ key, b.get? key = base.get? key) : Underway stage base b {} .start :=
  .draining 0 rfl same

theorem atWork {stage : Stage} {phase : Phase} {touched : Nat} {crew : Crew}
    (underway : Underway stage base b batch (.revising phase touched crew)) :
    batch.BlankAfter phase ∧
      AtWork stage phase (beforePhase stage base batch phase) (groupByKey (batch.entries phase)) crew b := by
  cases underway with
  | revising touched blank work => exact ⟨blank, work⟩

theorem flushed {stage : Stage} {touched : Nat} (underway : Underway stage base b batch (.flushing touched)) :
    ∀ key, b.get? key = (replay stage base batch).get? key := by
  cases underway with
  | flushing touched same => exact same

/-- What follows a phase that is done. -/
theorem after {stage : Stage} {phase : Phase} (touched : Nat) (blank : batch.BlankAfter phase)
    (same : ∀ key, b.get? key = (afterPhase stage phase (beforePhase stage base batch phase)
      (groupByKey (batch.entries phase))).get? key) : Underway stage base b batch (.after phase touched) := by
  cases phase with
  | retract => exact .draining touched blank same
  | add => exact .flushing touched same

/-- Drained entries are grouped for a crew, unless there are none. -/
theorem drain {stage : Stage} {phase : Phase} {touched : Nat}
    (underway : Underway stage base b batch (.draining phase touched)) (workers : Nat) (q : Queues) :
    Underway stage base b (batch.draw q phase) (.onward workers phase touched (q.entries phase)) := by
  cases underway with
  | draining touched blank same =>
    obtain ⟨entries, blank'⟩ := blank.draw q
    have before : beforePhase stage base (batch.draw q phase) phase = beforePhase stage base batch phase := by
      cases phase <;> rfl
    have same' : ∀ key, b.get? key = (beforePhase stage base (batch.draw q phase) phase).get? key := by
      rw [before]
      exact same
    rw [Cycle.onward]
    split
    · next none =>
      rw [List.isEmpty_iff] at none
      refine after touched blank' ?_
      rw [entries, none]
      exact same'
    · refine .revising touched blank' ?_
      rw [entries]
      exact AtWork.ofGroups workers same' (nodup_groupByKey _)

variable {site : Site} {behindSites : List Site} {q : Queues} {qs : List Queues} {w : World}
  {cycle : Cycle}

/-- The crew of a cycle that is underway does well. -/
theorem fine {stage : Stage} (underway : Underway stage base b batch cycle) : cycle.Fine := by
  cases underway with
  | draining | flushing | ending => trivial
  | revising touched blank work => exact fun ended finished => (work.of_result? finished).1

/-- Every turn of a cycle takes it further. -/
theorem turn {plan : FaultPlan} {workers worker : Nat} {qs' : List Queues} {s s' : Store} {cycle' : Cycle}
    (underway : Underway site.stage base (s.buckets site.scope) batch cycle) (spares : plan.Spares site.scope)
    (placed : Placed (site :: behindSites) s)
    (turn : Cycle.Turn workers worker site behindSites plan q cycle qs s cycle' qs' s') :
    s'.scopes.length = s.scopes.length ∧
      Underway site.stage base (s'.buckets site.scope) (cycle.drawn batch q) cycle' ∧
      ∀ phase, cycle'.Past phase → cycle.Past phase ∨ ∃ touched, cycle = .draining phase touched := by
  have open_ := placed.open_ site List.mem_cons_self
  cases turn with
  | drains phase touched =>
    refine ⟨rfl, underway.drain workers q, fun which past => ?_⟩
    rcases Cycle.past_onward past with rfl | earlier
    · exact .inr ⟨touched, rfl⟩
    · exact .inl earlier
  | works phase touched call =>
    obtain ⟨blank, work⟩ := underway.atWork
    obtain ⟨length, work'⟩ := work.call (nodup_groupByKey _) open_ spares call
    refine ⟨length, .revising touched blank work', fun which past => .inl ?_⟩
    cases phase <;> exact past
  | forwards phase touched finished =>
    obtain ⟨blank, work⟩ := underway.atWork
    obtain ⟨-, same⟩ := work.of_result? finished
    exact ⟨rfl, after _ blank same, fun which past => .inl (Cycle.past_after past)⟩
  | flushes touched settled =>
    -- The stages behind have scopes of their own.
    have kept : s'.buckets site.scope = s.buckets site.scope := settled.buckets_of_not_mem placed.head_not_mem
    exact ⟨settled.sameTree.length_scopes, .ending touched (kept ▸ underway.flushed), fun _ _ => .inl trivial⟩
  | rests ended => exact ⟨rfl, underway, fun _ _ => .inl trivial⟩

end Underway

end Concurrent

end Rollup
