import Rollup.Proofs.Concurrent.Crew

/-!
# Schedules of a crew

A schedule tells which worker makes the next call, and any list of numbers is one.  What every call
keeps holds after every schedule (`Crew.run_steps`).  Every call of a worker that has not ended leaves
less to do, so every crew can be brought to its end (`Crew.exists_schedule`).

Whatever fails, the store holds what the workers have noted as written and nothing else is changed
(`Wrote`).
-/

namespace Rollup.Concurrent

open Ingest

variable {σ : Type}

/-- The crew after the calls of a schedule. -/
def Crew.steps (site : Site) (phase : Phase) (schedule : List Nat) (crew : Crew) : Action Error σ Crew :=
  schedule.foldlM (fun crew i => crew.step site phase i) crew

theorem Crew.run_steps_cons (site : Site) (phase : Phase) (i : Nat) (schedule : List Nat) (crew : Crew) (l : σ)
    (world : World) :
    (crew.steps site phase (i :: schedule)).run l world =
      (crew.step site phase i >>= Crew.steps site phase schedule).run l world := rfl

/-- What every call keeps holds after a schedule. -/
theorem Crew.run_steps (site : Site) (phase : Phase) {plan : FaultPlan} {p : Crew → Store → Prop}
    (kept : ∀ {i crew s crew' s'}, p crew s → Crew.Call site phase plan i s crew s' crew' → p crew' s')
    (schedule : List Nat) {crew : Crew} (l : σ) {world : World} (own : world.plan = plan)
    (start : p crew world.store) :
    ∃ crew' world', (crew.steps site phase schedule).run l world = (.ok crew', l, world') ∧
      world'.plan = plan ∧ p crew' world'.store := by
  induction schedule generalizing crew world with
  | nil => exact ⟨crew, world, rfl, own, start⟩
  | cons i rest ih =>
    obtain ⟨next, world', ran, plan', call⟩ := crew.run_call site phase i l world
    rw [own] at plan' call
    obtain ⟨crew', world'', ran', after⟩ := ih plan' (kept start call)
    refine ⟨crew', world'', ?_, after⟩
    rw [Crew.run_steps_cons, Action.run_bind, ran]
    exact ran'

/-! ## Ends -/

/-- At most how many calls a worker still makes. -/
def Worker.effort (w : Worker) : Nat := if w.crashed then 0 else 2 * w.todo.length + w.ready.toList.length

theorem Worker.Call.effort_lt {site : Site} {phase : Phase} {plan : FaultPlan} {s s' : Store} {w w' : Worker}
    (call : Worker.Call site phase plan s w s' w') (busy : w.isDone = false) : w'.effort < w.effort := by
  cases call with
  | passes turn =>
    cases turn with
    | rests done => rw [busy] at done; cases done
    | plans made | skips kept | writes r =>
      simp only [Worker.effort, Bool.false_eq_true, if_false, List.length_cons, Option.toList_some,
        Option.toList_none, List.length_nil]
      omega
  | @misreads todo group progress f =>
    rcases f with e | _ <;> simp [Worker.effort, Worker.receive]
  | @miswrites todo r progress f =>
    rcases f with e | _ <;> simp [Worker.effort, Worker.receive]

/-- At most how many calls a crew still makes. -/
def Crew.effort (c : Crew) : Nat := (c.workers.map Worker.effort).sum

theorem Crew.Call.effort_lt {site : Site} {phase : Phase} {plan : FaultPlan} {i : Nat} {s s' : Store} {c c' : Crew}
    (call : Crew.Call site phase plan i s c s' c') {w : Worker} (found : c.workers[i]? = some w)
    (busy : w.isDone = false) : c'.effort < c.effort := by
  cases call with
  | nobody absent =>
    rw [List.getElem?_eq_none absent] at found
    cases found
  | one divided front back place call =>
    obtain rfl : _ = w := by simpa [← place] using found
    have less := call.effort_lt busy
    simp only [Crew.effort, List.map_append, List.map_cons, List.sum_append, List.sum_cons]
    omega

/-- A crew can be brought to its end. -/
theorem Crew.exists_schedule (site : Site) (phase : Phase) (crew : Crew) (l : σ) (world : World) :
    ∃ schedule crew' world', (crew.steps site phase schedule).run l world = (.ok crew', l, world') ∧
      crew'.isDone = true := by
  induction left : crew.effort using Nat.strong_induction_on generalizing crew world with
  | _ n ih =>
    cases busy : crew.isDone with
    | true => exact ⟨[], crew, world, rfl, busy⟩
    | false =>
      obtain ⟨w, mem, idle⟩ := List.all_eq_false.1 busy
      obtain ⟨i, found⟩ := List.mem_iff_getElem?.1 mem
      obtain ⟨next, world', ran, -, call⟩ := crew.run_call site phase i l world
      have less : next.effort < n := left ▸ call.effort_lt found (by simpa using idle)
      obtain ⟨rest, crew', world'', ran', done⟩ := ih _ less next world' rfl
      refine ⟨i :: rest, crew', world'', ?_, done⟩
      rw [Crew.run_steps_cons, Action.run_bind, ran]
      exact ran'

/-! ## What is written -/

/-- What the workers have noted as written, whether they crashed later or not. -/
def Crew.written (c : Crew) : List Revision := c.workers.flatMap fun w => w.progress.revisions

theorem Worker.Call.written {site : Site} {phase : Phase} {plan : FaultPlan} {s s' : Store} {w w' : Worker}
    (call : Worker.Call site phase plan s w s' w') :
    ∃ rs, s' = storeAll site.scope rs s ∧ w'.progress.revisions = w.progress.revisions ++ rs := by
  cases call with
  | passes turn =>
    cases turn with
    | rests | plans => exact ⟨[], rfl, (List.append_nil _).symm⟩
    | skips kept => exact ⟨[], rfl, rfl⟩
    | writes r => exact ⟨[r], rfl, rfl⟩
  | @misreads todo group progress f | @miswrites todo r progress f =>
    refine ⟨[], rfl, ?_⟩
    rcases f with e | _ <;> exact (List.append_nil _).symm

/-- The store is what it was, but for what a crew has noted as written. -/
def Wrote (site : Site) (before : Store) (c : Crew) (s : Store) : Prop :=
  ∃ rs, s = storeAll site.scope rs before ∧ rs.Perm c.written

theorem Wrote.call {site : Site} {phase : Phase} {plan : FaultPlan} {before s s' : Store} {c c' : Crew} {i : Nat}
    (wrote : Wrote site before c s) (call : Crew.Call site phase plan i s c s' c') : Wrote site before c' s' := by
  obtain ⟨rs, rfl, perm⟩ := wrote
  cases call with
  | nobody absent => exact ⟨rs, rfl, perm⟩
  | @one _ divided front w w' back place call =>
    obtain ⟨more, rfl, noted⟩ := call.written
    refine ⟨rs ++ more, (storeAll_append _ _ _ _).symm, ?_⟩
    simp only [Crew.written, List.flatMap_append, List.flatMap_cons, noted, List.append_assoc] at perm ⊢
    -- The new notes stand before those of the workers behind.
    refine (perm.append_right more).trans ?_
    simp only [List.append_assoc]
    exact (List.perm_append_comm.append_left _).append_left _

/-- Workers that crashed keep their notes to themselves. -/
theorem Crew.revisions_joinAll (workers : List Worker) :
    (Crew.joinAll workers).revisions =
      workers.flatMap fun w => if w.crashed then [] else w.progress.revisions := by
  suffices ∀ p : Progress, (workers.foldl (fun p w => p.join (workerProgress w.result)) p).revisions =
      p.revisions ++ workers.flatMap fun w => if w.crashed then [] else w.progress.revisions from this {}
  induction workers with
  | nil => exact fun p => (List.append_nil _).symm
  | cons w rest ih =>
    intro p
    have own : (workerProgress w.result).revisions = if w.crashed then [] else w.progress.revisions := by
      rw [Worker.result]
      split <;> rfl
    rw [List.foldl_cons, ih, Progress.join, own, List.flatMap_cons, List.append_assoc]

theorem Crew.isDone_of_result? {c : Crew} {ended : Except (Failure Error) Progress}
    (finished : c.result? = some ended) : c.isDone = true := by
  rw [Crew.result?] at finished
  split at finished
  · cases finished
  next all => simpa using all

/-- A crew without a crash reports all that it has written. -/
theorem Crew.revisions_of_result? {c : Crew} (sound : ∀ w ∈ c.workers, w.crashed = false)
    (single : c.divided = false → c.workers.length = 1) {ended : Except (Failure Error) Progress}
    (finished : c.result? = some ended) : ∃ p, ended = .ok p ∧ p.revisions = c.written := by
  obtain ⟨divided, workers⟩ := c
  rw [Crew.result?] at finished
  split at finished
  · cases finished
  split at finished
  · obtain rfl := Option.some.inj finished
    refine ⟨_, rfl, ?_⟩
    rw [Crew.revisions_joinAll, Crew.written]
    refine List.flatMap_congr fun w mem => ?_
    rw [sound w mem]
    rfl
  next alone =>
    -- A crew that is not divided is one worker, whose notes are all there is.
    obtain ⟨w, rfl⟩ := List.length_eq_one_iff.1 (single (by simpa using alone))
    have own : w.result = .ok w.progress := by
      rw [Worker.result, sound w List.mem_cons_self]
      rfl
    obtain rfl := Option.some.inj finished
    exact ⟨w.progress, own, (List.flatMap_singleton _ _).symm⟩

end Rollup.Concurrent
