import Mathlib
import Rollup.Proofs.Concurrent.Threads
import Rollup.Proofs.Ingest.Root

/-!
# What a commit covers

When a call to commit returns, everything that was queued before it began has been drained
(`Pursued`): by a cycle that the call led, or by cycles of others if it found the queues empty after
one of them.  It has been applied as well, unless the last of these cycles is still running.
-/

namespace Rollup

namespace Ingest

theorem mem_domain_foldl_replay {stage : Stage} {batches : List Queues} {b : Buckets} {key : Key} :
    key ∈ domain (batches.foldl (replay stage) b) ↔
      key ∈ domain b ∨ docsOf (batches.flatMap Queues.additions) key ≠ [] := by
  induction batches generalizing b with
  | nil => exact ⟨.inl, fun found => found.resolve_right fun filled => filled rfl⟩
  | cons batch rest ih =>
    have first : key ∈ domain (replay stage b batch) ↔ key ∈ domain b ∨ docsOf batch.additions key ≠ [] :=
      mem_domain_cycle (List.Perm.refl _).subperm (List.Perm.refl _) key
    rw [List.foldl_cons, ih, first, List.flatMap_cons, docsOf_append, or_assoc]
    simp only [ne_eq, List.append_eq_nil_iff, not_and_or]

end Ingest

theorem Queues.entries_of_size {q : Queues} (none : q.size = 0) (phase : Phase) : q.entries phase = [] := by
  rw [size, Nat.add_eq_zero_iff, List.length_eq_zero_iff, List.length_eq_zero_iff] at none
  cases phase with
  | retract => exact none.2
  | add => exact none.1

namespace Concurrent

open Ingest

variable {f g : Floor} {i k worker : Nat}

/-! ## Growth -/

namespace Journal

variable (j : Journal) (f : Floor) (k : Nat) (phase : Phase)

/-- What is queued stays queued, drained or not. -/
theorem pushed_note : j.pushed.entries phase <+: (j.note f k).pushed.entries phase := by
  rw [note]
  split
  · next which doc _ =>
    cases f.entry doc with
    | none => exact List.prefix_refl _
    | some entry =>
      rw [Option.elim_some, Queues.entries_push]
      exact List.prefix_append _ _
  all_goals exact List.prefix_refl _

/-- What was drained stays drained. -/
theorem drained_note : j.drained phase <+: (j.note f k).drained phase := by
  rw [note]
  split
  · exact List.prefix_refl _
  · rw [drained, drained, List.flatMap_append, List.flatMap_singleton]
    exact List.prefix_append _ _
  · next cycle _ _ =>
    refine (List.prefix_append_right_inj _).2 ?_
    cases cycle with
    | draining which touched => cases which <;> cases phase <;> simp [Cycle.drawn, Queues.draw, Queues.entries]
    | revising _ _ _ | flushing _ | ending _ => exact List.prefix_refl _
  · exact List.prefix_refl _

variable {j f phase}

theorem drained_note_draining {background : Bool} {touched : Nat}
    (found : f.threads[i]? = some (.leading background (.draining phase touched))) :
    (j.note f i).drained phase = j.drained phase ++ f.rootQueues.entries phase := by
  cases phase <;> simp [note, found, drained, Cycle.drawn, Queues.draw, Queues.entries]

end Journal

theorem Thread.finish_ne_pushing (background : Bool) (result : Except (Failure Error) Unit) (phase : Phase)
    (doc : Document) : Thread.finish background result ≠ .pushing phase doc := by
  rcases result with (_ | _) | _ <;> cases background <;> exact Thread.noConfusion

/-- A step moves one thread on, and may add threads behind the others.  None of these is about to queue a
document. -/
theorem Floor.Moves.threads {t : Thread} (moves : f.Moves k worker t g) :
    ∃ u more, g.threads = f.threads.set k u ++ more ∧ ∀ phase doc, Thread.pushing phase doc ∉ u :: more := by
  -- Most steps add no thread.
  have alone (h : Floor) (u : Thread) (kept : h.threads = f.threads) (calm : ∀ phase doc, u ≠ .pushing phase doc) :
      ∃ u' more, (h.put k u).threads = f.threads.set k u' ++ more ∧
        ∀ phase doc, Thread.pushing phase doc ∉ u' :: more :=
    ⟨u, [], by rw [put, kept, List.append_nil], fun phase doc mem => calm phase doc (List.mem_singleton.1 mem).symm⟩
  cases moves with
  | push phase doc =>
    refine alone _ _ rfl fun _ _ => ?_
    rw [Floor.push]
    rcases (Ingestor.enqueue phase doc : Action Error Ingestor (Option Nat)).run f.ingestor f.world with
      ⟨_ | _ | _, _, _⟩ <;> exact Thread.noConfusion
  | again | clear => exact alone _ _ rfl fun _ _ => Thread.noConfusion
  | stop => exact alone _ _ rfl (Thread.finish_ne_pushing _ _)
  | land background ended => exact alone _ _ rfl (Thread.finish_ne_pushing _ _)
  | @wake background generation outcome told =>
    refine alone _ _ rfl ?_
    cases outcome with
    | ok _ => exact fun _ _ => Thread.noConfusion
    | error e => exact Thread.finish_ne_pushing _ _
  | arrive background =>
    cases running : f.gate.running with
    | true =>
      rw [arrive_of_running running]
      exact alone _ _ rfl fun _ _ => Thread.noConfusion
    | false =>
      rw [arrive_of_free running]
      exact alone _ _ rfl fun _ _ => Thread.noConfusion
  | lead background goes =>
    refine alone _ _ ?_ fun _ _ => Thread.noConfusion
    rw [cycleStep]
    split <;> rfl
  | schedule queued =>
    rw [Floor.schedule]
    split
    · refine ⟨_, [.arriving true], rfl, fun phase doc mem => ?_⟩
      simp only [List.mem_cons, List.not_mem_nil, reduceCtorEq, or_self] at mem
    · exact alone f _ rfl fun _ _ => Thread.noConfusion

theorem Floor.getElem?_put_self {h : Floor} {t : Thread} (found : f.threads[i]? = some t)
    (kept : h.threads = f.threads) (u : Thread) : (h.put i u).threads[i]? = some u := by
  rw [put, kept, List.getElem?_set_self (List.getElem?_eq_some_iff.1 found).1]

theorem Floor.getElem?_step?_of_ne (stepped : f.step? k worker = some g) {t : Thread} (found : f.threads[i]? = some t)
    (other : i ≠ k) : g.threads[i]? = some t := by
  obtain ⟨_, -, moves⟩ := moves_of_step? stepped
  obtain ⟨u, more, threads, -⟩ := moves.threads
  have present := (List.getElem?_eq_some_iff.1 found).1
  rw [threads, List.getElem?_append_left (by rwa [List.length_set]), List.getElem?_set_ne other.symm, found]

/-! ## Pursuing entries -/

/-- How far a call to commit has come with what was queued when it began. -/
def Pursues (asked : Queues) (j : Journal) : Thread → Prop
  | .arriving background | .waiting background _ | .rechecking background => background = false
  | .leading background cycle =>
    background = false ∧ ∀ phase, cycle.Past phase → asked.entries phase <+: j.drained phase
  | .ended result => result = .ok () → ∀ phase, asked.entries phase <+: j.drained phase
  | .pushing _ _ | .scheduling _ | .clearing => False

theorem Pursues.mono {asked : Queues} {j j' : Journal} {t : Thread}
    (grows : ∀ phase, j.drained phase <+: j'.drained phase) (pursues : Pursues asked j t) : Pursues asked j' t := by
  cases t with
  | arriving _ | waiting _ _ | rechecking _ => exact pursues
  | leading background cycle => exact ⟨pursues.1, fun phase past => (pursues.2 phase past).trans (grows phase)⟩
  | ended result => exact fun ok phase => (pursues ok phase).trans (grows phase)
  | pushing _ _ | scheduling _ | clearing => exact pursues

/-- A call pursues what was queued when it began. -/
structure Pursued (asked : Queues) (i : Nat) (j : Journal) (f : Floor) : Prop where
  queued : ∀ phase, asked.entries phase <+: j.pushed.entries phase
  pursues : ∃ t, f.threads[i]? = some t ∧ Pursues asked j t

section Steps

variable {root : Site} {behindSites : List Site} {base : Buckets} {leader? : Option (Nat × Cycle)} {asked : Queues}
  {j : Journal}

/-- A step of the call itself takes it further. -/
theorem Pursues.step {t : Thread} (manned : Manned root behindSites base leader? j f)
    (queued : ∀ phase, asked.entries phase <+: j.pushed.entries phase) (found : f.threads[i]? = some t)
    (pursues : Pursues asked j t) (moves : f.Moves i worker t g) :
    ∃ u, g.threads[i]? = some u ∧ Pursues asked (j.note f i) u := by
  have grows (phase : Phase) := j.drained_note f i phase
  have placed (h : Floor) (u : Thread) (kept : h.threads = f.threads) := Floor.getElem?_put_self found kept u
  cases moves with
  | push | schedule | clear => cases pursues
  | again background _ => exact ⟨_, placed f _ rfl, pursues⟩
  | arrive background =>
    obtain rfl : background = false := pursues
    cases running : f.gate.running with
    | true =>
      rw [Floor.arrive_of_running running]
      exact ⟨_, placed f _ rfl, rfl⟩
    | false =>
      rw [Floor.arrive_of_free running]
      exact ⟨_, placed _ _ rfl, rfl, fun phase past => False.elim past⟩
  | @wake background generation outcome told =>
    obtain rfl : background = false := pursues
    refine ⟨_, placed f _ rfl, ?_⟩
    cases outcome with
    | ok _ => rfl
    | error e => exact fun same => by cases same
  | stop background drained =>
    obtain rfl : background = false := pursues
    refine ⟨_, placed f _ rfl, fun _ phase => ?_⟩
    -- Nothing is queued, so everything that was ever queued has been drained.
    have none : f.rootQueues.entries phase = [] := Queues.entries_of_size drained phase
    refine List.IsPrefix.trans ?_ (grows phase)
    rw [← List.append_nil (j.drained phase), ← none, ← manned.split phase]
    exact queued phase
  | @lead background cycle goes =>
    obtain ⟨rfl, covered⟩ := pursues
    obtain ⟨cycle', h, moved, threads, -, past⟩ := manned.cycleStep found goes worker
    rw [moved]
    refine ⟨_, placed h _ threads, rfl, fun phase reached => ?_⟩
    rcases past phase reached with earlier | ⟨touched, rfl⟩
    · exact (covered phase earlier).trans (grows phase)
    · -- The cycle has just drained this queue.
      rw [Journal.drained_note_draining found, ← manned.split phase]
      exact queued phase
  | land background ended =>
    obtain ⟨rfl, covered⟩ := pursues
    obtain ⟨⟨n, rfl⟩, -⟩ := manned.land found
    exact ⟨_, placed _ _ rfl, fun _ phase => (covered phase trivial).trans (grows phase)⟩

theorem Pursued.step (pursued : Pursued asked i j f) (manned : Manned root behindSites base leader? j f)
    (stepped : f.step? k worker = some g) : Pursued asked i (j.note f k) g := by
  refine ⟨fun phase => (pursued.queued phase).trans (j.pushed_note f k phase), ?_⟩
  obtain ⟨t, found, pursues⟩ := pursued.pursues
  by_cases own : i = k
  · subst own
    obtain ⟨t', found', moves⟩ := Floor.moves_of_step? stepped
    obtain rfl : t = t' := Option.some.inj (found.symm.trans found')
    exact pursues.step manned pursued.queued found moves
  · exact ⟨t, Floor.getElem?_step?_of_ne stepped found own, pursues.mono fun phase => j.drained_note f k phase⟩

theorem Pursued.run (pursued : Pursued asked i j f) (manned : Manned root behindSites base leader? j f)
    {schedule : Floor.Schedule} (ran : f.run? schedule = some g) :
    Pursued asked i (j.keep f schedule) g ∧ ∃ leader?, Manned root behindSites base leader? (j.keep f schedule) g := by
  refine @Floor.run?_induction (fun j f => Pursued asked i j f ∧ ∃ leader?, Manned root behindSites base leader? j f)
    ?_ schedule j f g ⟨pursued, leader?, manned⟩ ran
  intro j f g k worker ⟨pursued, leader?, manned⟩ stepped
  exact ⟨pursued.step manned stepped, manned.step stepped⟩

/-- Without a leader, everything that was drained is in a finished batch. -/
theorem Manned.drained_eq (manned : Manned root behindSites base none j f) (phase : Phase) :
    j.drained phase = j.finished.flatMap (·.entries phase) := by
  have blank : j.running.entries phase = [] := by
    rw [manned.stands.1]
    cases phase <;> rfl
  rw [Journal.drained, blank, List.append_nil]

theorem Manned.stored (manned : Manned root behindSites base none j f) {e : Key × Document}
    (listed : e ∈ j.finished.flatMap Queues.additions) : (f.world.store.get? root.scope e.1).isSome := by
  have stored : e.1 ∈ domain (j.buckets root.stage base) :=
    mem_domain_foldl_replay.2 (.inr (List.ne_nil_of_mem (mem_docsOf.2 listed)))
  rw [Store.get?_eq, manned.stands.2]
  exact Option.isSome_iff_exists.2 (mem_domain.1 stored)

end Steps

/-! ## Runs -/

end Concurrent

end Rollup
