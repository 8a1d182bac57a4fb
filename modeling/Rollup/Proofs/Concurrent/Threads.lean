import Rollup.Concurrent.Threads
import Rollup.Proofs.Concurrent.Cycle
import Rollup.Proofs.Ingest.Opening

/-!
# Threads on one ingestor

A journal is kept beside a run: what was queued, which batch every cycle has drained, and which batch
the running one has drained so far.  The journal follows the steps and decides none.  At any moment
at most one thread leads a cycle, every entry is in one place, and the root is as the batches make it
(`Manned`); every step of every thread preserves that (`Manned.step`).
-/

namespace Rollup.Concurrent

open Ingest

/-! ## Journals -/

/-- What has become of the entries that were queued. -/
structure Journal where
  /-- Everything that was queued, the oldest first. -/
  pushed : Queues := {}
  /-- The batches of the cycles that have ended, the oldest first. -/
  finished : List Queues := []
  /-- What the running cycle has drained so far. -/
  running : Queues := {}

/-- The queues of the root. -/
def Floor.rootQueues (f : Floor) : Queues := f.ingestor.queues.headD {}

/-- The queues of the stages behind the root. -/
def Floor.behindQueues (f : Floor) : List Queues := f.ingestor.queues.tail

/-- The entry that a document makes at the root. -/
def Floor.entry (f : Floor) (doc : Document) : Option (Key × Document) :=
  f.ingestor.rootStage?.bind fun stage => stage.map? doc

namespace Journal

/-- What was drained from a queue, the oldest first. -/
def drained (j : Journal) (phase : Phase) : List (Key × Document) :=
  j.finished.flatMap (·.entries phase) ++ j.running.entries phase

/-- What the batches of the cycles that have ended make of some buckets, one after the other. -/
def buckets (j : Journal) (stage : Stage) (base : Buckets) : Buckets := j.finished.foldl (replay stage) base

/-- Notes the step that a thread is about to take. -/
def note (j : Journal) (f : Floor) (i : Nat) : Journal :=
  match f.threads[i]? with
  | some (.pushing phase doc) => { j with pushed := (f.entry doc).elim j.pushed (j.pushed.push · phase) }
  | some (.leading _ (.ending _)) => { j with finished := j.finished ++ [j.running], running := {} }
  | some (.leading _ cycle) => { j with running := cycle.drawn j.running f.rootQueues }
  | _ => j

/-- The journal after the steps of a run. -/
def keep : Journal → Floor → Floor.Schedule → Journal
  | j, _, [] => j
  | j, f, s :: rest =>
    match f.step? s.1 s.2 with
    | some g => (j.note f s.1).keep g rest
    | none => j

end Journal

/-- What every step preserves holds after a run. -/
theorem Floor.run?_induction {p : Journal → Floor → Prop}
    (step : ∀ j f g i worker, p j f → f.step? i worker = some g → p (j.note f i) g) {schedule : Schedule}
    {j : Journal} {f g : Floor} (start : p j f) (ran : f.run? schedule = some g) : p (j.keep f schedule) g := by
  induction schedule generalizing j f with
  | nil =>
    cases ran
    exact start
  | cons s rest ih =>
    rw [run?, List.foldlM_cons] at ran
    obtain ⟨mid, first, later⟩ := Option.bind_eq_some_iff.1 ran
    rw [Journal.keep, first]
    exact ih (step _ _ _ _ _ start first) later

/-! ## Steps of threads -/

/-- What a step of a thread makes of the floor, by what the thread does next. -/
inductive Floor.Moves (f : Floor) (i worker : Nat) : Thread → Floor → Prop
  | push (phase : Phase) (doc : Document) :
    Moves f i worker (.pushing phase doc) ((f.push phase doc).2.put i (f.push phase doc).1)
  | schedule (queued : Nat) :
    Moves f i worker (.scheduling queued) ((f.put i (.ended (.ok ()))).schedule queued)
  | arrive (background : Bool) :
    Moves f i worker (.arriving background) ((f.arrive background).2.put i (f.arrive background).1)
  | wake (background : Bool) {generation : UInt64} {outcome : Outcome}
      (told : f.gate.outcome? generation = some outcome) :
    Moves f i worker (.waiting background generation) (f.put i (Floor.takeOver background outcome))
  | stop (background : Bool) (drained : f.ingestor.queued = 0) :
    Moves f i worker (.rechecking background) (f.put i (.finish background (.ok ())))
  | again (background : Bool) (filled : f.ingestor.queued ≠ 0) :
    Moves f i worker (.rechecking background) (f.put i (.arriving background))
  | lead (background : Bool) {cycle : Cycle} (goes : ∀ ended, cycle ≠ .ending ended) :
    Moves f i worker (.leading background cycle)
      ((f.cycleStep worker cycle).2.put i (.leading background (f.cycleStep worker cycle).1))
  | land (background : Bool) (ended : Except (Failure Error) Nat) :
    Moves f i worker (.leading background (.ending ended))
      ((f.land background ended).2.put i (f.land background ended).1)
  | clear : Moves f i worker .clearing ((f.mark false).put i (.ended (.ok ())))

theorem Floor.moves_of_step? {f g : Floor} {i worker : Nat} (stepped : f.step? i worker = some g) :
    ∃ t, f.threads[i]? = some t ∧ f.Moves i worker t g := by
  cases found : f.threads[i]? with
  | none => simp [step?, found] at stepped
  | some t =>
    refine ⟨t, rfl, ?_⟩
    rw [step?] at stepped
    simp only [found] at stepped
    cases t with
    | ended result => cases stepped
    | pushing phase doc =>
      cases stepped
      exact .push phase doc
    | scheduling queued =>
      cases stepped
      exact .schedule queued
    | arriving background =>
      cases stepped
      exact .arrive background
    | waiting background generation =>
      obtain ⟨outcome, told, rfl⟩ := Option.map_eq_some_iff.1 stepped
      exact .wake background told
    | rechecking background =>
      cases stepped
      by_cases drained : f.ingestor.queued = 0
      · rw [if_pos drained]
        exact .stop background drained
      · rw [if_neg drained]
        exact .again background drained
    | leading background cycle =>
      cases cycle with
      | ending ended =>
        cases stepped
        exact .land background ended
      | draining _ _ | revising _ _ _ | flushing _ =>
        cases stepped
        exact .lead background fun ended same => by cases same
    | clearing =>
      cases stepped
      exact .clear

/-- A thread that neither queues nor leads. -/
def Thread.Idle : Thread → Prop
  | .pushing _ _ | .leading _ _ => False
  | _ => True

namespace Journal

variable {j : Journal} {f : Floor} {i : Nat}

theorem note_idle {t : Thread} (found : f.threads[i]? = some t) (idle : t.Idle) : j.note f i = j := by
  cases t with
  | pushing _ _ | leading _ _ => exact idle.elim
  | scheduling _ | arriving _ | waiting _ _ | rechecking _ | clearing | ended _ => simp only [note, found]

theorem note_pushing {phase : Phase} {doc : Document} (found : f.threads[i]? = some (.pushing phase doc)) :
    j.note f i = { j with pushed := (f.entry doc).elim j.pushed (j.pushed.push · phase) } := by
  simp only [note, found]

/-- The steps of a leader note what has been drained. -/
theorem note_leading {background : Bool} {cycle : Cycle} (found : f.threads[i]? = some (.leading background cycle))
    (goes : ∀ ended, cycle ≠ .ending ended) :
    j.note f i = { j with running := cycle.drawn j.running f.rootQueues } := by
  cases cycle with
  | ending ended => exact absurd rfl (goes ended)
  | draining _ _ | revising _ _ _ | flushing _ => simp only [note, found]

theorem note_ending {background : Bool} {ended : Except (Failure Error) Nat}
    (found : f.threads[i]? = some (.leading background (.ending ended))) :
    j.note f i = { j with finished := j.finished ++ [j.running], running := {} } := by
  simp only [note, found]

end Journal

namespace Floor

variable {f : Floor}

/-- Queueing changes the queues of the root only, and only if the document is not rejected. -/
theorem push_eq {root : Site} {behindSites : List Site} {q : Queues} {qs : List Queues}
    (sites : f.ingestor.sites = root :: behindSites) (queues : f.ingestor.queues = q :: qs) (phase : Phase)
    (doc : Document) :
    ∃ n w', w'.plan = f.world.plan ∧ w'.store = f.world.store ∧
      f.push phase doc = ((root.stage.map? doc).elim (.ended (.ok ())) fun _ => .scheduling n,
        { f with
          ingestor := { f.ingestor with queues := (root.stage.map? doc).elim q (q.push · phase) :: qs }
          world := w' }) := by
  obtain ⟨ingestor, w', rfl, plan, store, ran⟩ :=
    Ingestor.run_enqueueRoot (ε := Error) sites queues phase doc f.world
  refine ⟨Ingestor.queued { f.ingestor with queues := (root.stage.map? doc).elim q (q.push · phase) :: qs }, w', plan,
    store, ?_⟩
  rw [push, ran]
  cases root.stage.map? doc <;> rfl

theorem arrive_of_running (running : f.gate.running = true) (background : Bool) :
    f.arrive background = (.waiting background f.gate.generation, f) := by
  simp only [arrive, Gate.enter, running, if_true]

theorem arrive_of_free (free : f.gate.running = false) (background : Bool) :
    f.arrive background =
      (.leading background .start, { f with gate := { f.gate with running := true } }.record .commitStart) := by
  simp only [arrive, Gate.enter, free, Bool.false_eq_true, if_false]

end Floor

/-! ## Leaders -/

/-- The cycle that a thread leads. -/
def Thread.cycle? : Thread → Option Cycle
  | .leading _ cycle => some cycle
  | _ => none

namespace Floor

variable {f g : Floor} {i k : Nat} {t : Thread}

theorem cycle?_eq (f : Floor) (i : Nat) : f.cycle? i = f.threads[i]?.bind Thread.cycle? := by
  rw [cycle?]
  cases f.threads[i]? with
  | none => rfl
  | some t => cases t <;> rfl

theorem cycle?_set (present : i < f.threads.length) (threads : g.threads = f.threads.set i t) (k : Nat) :
    g.cycle? k = if k = i then t.cycle? else f.cycle? k := by
  rw [cycle?_eq, cycle?_eq, threads, List.getElem?_set]
  by_cases same : i = k
  · subst same
    simp [present]
  · simp [same, Ne.symm same]

/-- A thread that does not lead moves on and still does not. -/
theorem cycle?_of_quiet (found : f.threads[i]? = some t) (quiet : t.cycle? = none) {u : Thread}
    (threads : g.threads = f.threads.set i u) (still : u.cycle? = none) (k : Nat) : g.cycle? k = f.cycle? k := by
  rw [cycle?_set (List.getElem?_eq_some_iff.1 found).1 threads]
  split
  · next same => rw [same, cycle?_eq, found, still, Option.bind_some, quiet]
  · rfl

/-- If no other thread leads, the thread that moves on is the only one that may. -/
theorem leads_set (present : i < f.threads.length) (others : ∀ k, k ≠ i → f.cycle? k = none)
    (threads : g.threads = f.threads.set i t) (k : Nat) (cycle : Cycle) :
    g.cycle? k = some cycle ↔ t.cycle?.map (i, ·) = some (k, cycle) := by
  rw [cycle?_set present threads, Option.map_eq_some_iff]
  split
  · next same => simp [same]
  · next other =>
    rw [others k other]
    simp [Ne.symm other]

theorem cycle?_finish (background : Bool) (result : Except (Failure Error) Unit) :
    (Thread.finish background result).cycle? = none := by
  rcases result with (_ | _) | _ <;> cases background <;> rfl

theorem cycle?_takeOver (background : Bool) (outcome : Outcome) : (takeOver background outcome).cycle? = none := by
  cases outcome with
  | ok _ => rfl
  | error e => exact cycle?_finish background (.error (.error e))

theorem cycle?_spawn (f : Floor) (quiet : t.cycle? = none) (k : Nat) : (f.spawn t).cycle? k = f.cycle? k := by
  rw [cycle?_eq, cycle?_eq, spawn, List.getElem?_append]
  split
  · rfl
  · next beyond =>
    rw [List.getElem?_eq_none (Nat.le_of_not_lt beyond)]
    cases at_ : [t][k - f.threads.length]? with
    | none => rfl
    | some u =>
      rw [List.mem_singleton.1 (List.mem_of_getElem? at_)]
      exact quiet

end Floor

/-! ## Steps and cycles -/

namespace Floor

/-- Nothing that a cycle has to do with was changed. -/
structure Idles (f g : Floor) : Prop where
  sites : g.ingestor.sites = f.ingestor.sites
  queues : g.ingestor.queues = f.ingestor.queues
  world : g.world = f.world
  gate : g.gate = f.gate
  cycles : ∀ k, g.cycle? k = f.cycle? k

/-- What a step has to do with documents and cycles. -/
inductive Acts (f : Floor) (i worker : Nat) : Thread → Floor → Prop
  | idles {t : Thread} {g : Floor} (idle : t.Idle) (idles : f.Idles g) : Acts f i worker t g
  | push (phase : Phase) (doc : Document) :
    Acts f i worker (.pushing phase doc) ((f.push phase doc).2.put i (f.push phase doc).1)
  /-- A thread comes to lead, as no other does. -/
  | leads (background : Bool) (free : f.gate.running = false) :
    Acts f i worker (.arriving background)
      (({ f with gate := { f.gate with running := true } }.record .commitStart).put i (.leading background .start))
  | lead (background : Bool) {cycle : Cycle} (goes : ∀ ended, cycle ≠ .ending ended) :
    Acts f i worker (.leading background cycle)
      ((f.cycleStep worker cycle).2.put i (.leading background (f.cycleStep worker cycle).1))
  | land (background : Bool) (ended : Except (Failure Error) Nat) :
    Acts f i worker (.leading background (.ending ended))
      ((f.land background ended).2.put i (f.land background ended).1)

variable {f g : Floor} {i worker : Nat} {t u : Thread}

theorem Idles.put (found : f.threads[i]? = some t) (quiet : t.cycle? = none) (still : u.cycle? = none) :
    f.Idles (f.put i u) :=
  ⟨rfl, rfl, rfl, rfl, cycle?_of_quiet found quiet rfl still⟩

theorem Moves.acts (moves : f.Moves i worker t g) (found : f.threads[i]? = some t) : f.Acts i worker t g := by
  cases moves with
  | push phase doc => exact .push phase doc
  | lead background goes => exact .lead background goes
  | land background ended => exact .land background ended
  | schedule queued =>
    refine .idles trivial ?_
    have put : f.Idles (f.put i (.ended (.ok ()))) := .put found rfl rfl
    rw [Floor.schedule]
    split
    · exact ⟨rfl, rfl, rfl, rfl, fun k => (cycle?_spawn _ rfl k).trans (put.cycles k)⟩
    · exact put
  | arrive background =>
    cases running : f.gate.running with
    | true =>
      rw [arrive_of_running running]
      exact .idles trivial (.put found rfl rfl)
    | false =>
      rw [arrive_of_free running]
      exact .leads background running
  | @wake background generation outcome told =>
    exact .idles trivial (.put found rfl (cycle?_takeOver background outcome))
  | stop background _ => exact .idles trivial (.put found rfl (cycle?_finish background (.ok ())))
  | again background _ => exact .idles trivial (.put found rfl rfl)
  | clear =>
    have put : f.Idles (f.put i (.ended (.ok ()))) := .put found rfl rfl
    exact .idles trivial ⟨rfl, rfl, rfl, rfl, put.cycles⟩

end Floor

/-! ## What holds at any moment -/

/-- The root is as the batches make it: those of cycles that have ended, and as far as the leader has
come, the one of the running cycle. -/
def Stands (stage : Stage) (base : Buckets) (j : Journal) (b : Buckets) : Option (Nat × Cycle) → Prop
  | none => j.running = {} ∧ ∀ key, b.get? key = (j.buckets stage base).get? key
  | some (_, cycle) => Underway stage (j.buckets stage base) b j.running cycle

/-- What holds of a floor at any moment, with its leader if there is one; `base` are the buckets of the
root as they were at the start. -/
structure Manned (root : Site) (behindSites : List Site) (base : Buckets) (leader? : Option (Nat × Cycle)) (j : Journal)
    (f : Floor) : Prop where
  sites : f.ingestor.sites = root :: behindSites
  queues : f.ingestor.queues.length = behindSites.length + 1
  plan : f.world.plan = .never
  placed : Placed (root :: behindSites) f.world.store
  gate : f.gate.running = leader?.isSome
  leads : ∀ i cycle, f.cycle? i = some cycle ↔ leader? = some (i, cycle)
  split : ∀ phase, j.pushed.entries phase = j.drained phase ++ f.rootQueues.entries phase
  made : ∀ phase, ∀ e ∈ j.pushed.entries phase, ∃ doc, root.stage.map? doc = some e
  stands : Stands root.stage base j (f.world.store.buckets root.scope) leader?

/-! ## The start -/

/-- A call to ingest, to retract or to commit that has not begun. -/
def Thread.IsCall : Thread → Prop
  | .pushing _ _ | .arriving false => True
  | _ => False

/-- Calls that are about to begin on an ingestor. -/
def Floor.start (t : Ingestor.Session) (calls : List Thread) : Floor :=
  { ingestor := t.1, world := t.2, threads := calls }

theorem Thread.IsCall.cycle?_eq_none {t : Thread} (call : t.IsCall) : t.cycle? = none := by
  cases t with
  | leading _ _ => cases call
  | pushing _ _ | scheduling _ | arriving _ | waiting _ _ | rechecking _ | clearing | ended _ => rfl

theorem Floor.cycle?_start {t : Ingestor.Session} {calls : List Thread} (fresh : ∀ call ∈ calls, call.IsCall)
    (i : Nat) : (start t calls).cycle? i = none := by
  rw [cycle?_eq, start]
  cases at_ : calls[i]? with
  | none => rfl
  | some call => exact (fresh call (List.mem_of_getElem? at_)).cycle?_eq_none

/-- Calls on an ingestor that was opened start with nothing queued, drained or led. -/
theorem Manned.start {root : Site} {behindSites : List Site} {config : Config} {t : Ingestor.Session}
    (ingestor : t.1 = { sites := root :: behindSites, queues := {} :: idle behindSites, config })
    (plan : t.2.plan = .never) (placed : Placed (root :: behindSites) t.2.store) {calls : List Thread}
    (fresh : ∀ call ∈ calls, call.IsCall) :
    Manned root behindSites (t.2.store.buckets root.scope) none {} (.start t calls) where
  sites := by rw [Floor.start, ingestor]
  queues := by simp [Floor.start, ingestor, idle]
  plan := plan
  placed := placed
  gate := rfl
  leads i cycle := by simp [Floor.cycle?_start fresh]
  split phase := by cases phase <;> simp [Floor.rootQueues, Floor.start, ingestor, Journal.drained, Queues.entries]
  made phase e mem := by cases phase <;> cases mem
  stands := ⟨rfl, fun _ => rfl⟩

/-! ## Steps -/

namespace Manned

variable {root : Site} {behindSites : List Site} {base : Buckets} {leader? : Option (Nat × Cycle)} {j : Journal}
  {f g : Floor} {i worker : Nat}

theorem idles (manned : Manned root behindSites base leader? j f) (idles : f.Idles g) :
    Manned root behindSites base leader? j g where
  sites := idles.sites.trans manned.sites
  queues := idles.queues ▸ manned.queues
  plan := idles.world ▸ manned.plan
  placed := idles.world ▸ manned.placed
  gate := idles.gate ▸ manned.gate
  leads i cycle := idles.cycles i ▸ manned.leads i cycle
  split phase := by
    rw [Floor.rootQueues, idles.queues]
    exact manned.split phase
  made := manned.made
  stands := idles.world ▸ manned.stands

theorem others (manned : Manned root behindSites base leader? j f) (k : Nat)
    (other : leader?.map Prod.fst ≠ some k) : f.cycle? k = none := by
  cases led : f.cycle? k with
  | none => rfl
  | some cycle => exact absurd (congrArg (Option.map Prod.fst) ((manned.leads k cycle).1 led)) other

/-- Queueing a document appends its entry, wherever a cycle is. -/
theorem push (manned : Manned root behindSites base leader? j f) {phase : Phase} {doc : Document}
    (found : f.threads[i]? = some (.pushing phase doc)) :
    Manned root behindSites base leader? (j.note f i) ((f.push phase doc).2.put i (f.push phase doc).1) := by
  obtain ⟨q, qs, queues⟩ := List.exists_cons_of_length_eq_add_one manned.queues
  obtain ⟨n, w', plan, store, pushed⟩ := Floor.push_eq manned.sites queues phase doc
  have entry : f.entry doc = root.stage.map? doc := by
    rw [Floor.entry, Ingestor.rootStage?, manned.sites]
    rfl
  have rootQueues : f.rootQueues = q := by rw [Floor.rootQueues, queues]; rfl
  have noted : j.note f i = { j with pushed := (root.stage.map? doc).elim j.pushed (j.pushed.push · phase) } := by
    rw [Journal.note_pushing found, entry]
  have still : (f.push phase doc).1.cycle? = none := by
    rw [pushed]
    cases root.stage.map? doc <;> rfl
  have cycles := Floor.cycle?_of_quiet (g := (f.push phase doc).2.put i (f.push phase doc).1) found rfl
    (by rw [Floor.put, pushed]) still
  have split := manned.split
  rw [rootQueues] at split
  have length := manned.queues
  rw [queues] at length
  rw [noted, pushed]
  rw [pushed] at cycles
  -- A document that the root stage rejects leaves the journal and the queues alone.
  refine ⟨manned.sites, length, plan.trans manned.plan, store ▸ manned.placed, manned.gate,
    fun k cycle => cycles k ▸ manned.leads k cycle, fun which => ?_, fun which e mem => ?_, store ▸ manned.stands⟩
  · show ((root.stage.map? doc).elim j.pushed (j.pushed.push · phase)).entries which =
      j.drained which ++ ((root.stage.map? doc).elim q (q.push · phase)).entries which
    cases root.stage.map? doc with
    | none => exact split which
    | some entry =>
      rw [Option.elim_some, Option.elim_some, Queues.entries_push, Queues.entries_push, split, List.append_assoc]
  · cases made : root.stage.map? doc with
    | none =>
      rw [made] at mem
      exact manned.made which e mem
    | some entry =>
      rw [made] at mem
      rcases Ingestor.mem_entries_push mem with kept | rfl
      · exact manned.made which e kept
      · exact ⟨doc, made⟩

/-- A thread comes to lead only if no other does. -/
theorem leaderless (manned : Manned root behindSites base leader? j f) (free : f.gate.running = false) :
    leader? = none := by
  rw [← Option.not_isSome_iff_eq_none, ← manned.gate, free]
  exact Bool.false_ne_true

theorem start_cycle (manned : Manned root behindSites base none j f) {background : Bool}
    (found : f.threads[i]? = some (.arriving background)) :
    Manned root behindSites base (some (i, .start)) j
      (({ f with gate := { f.gate with running := true } }.record .commitStart).put i
        (.leading background .start)) := by
  have present := (List.getElem?_eq_some_iff.1 found).1
  obtain ⟨blank, same⟩ := manned.stands
  refine ⟨manned.sites, manned.queues, manned.plan, manned.placed, rfl, ?_, manned.split, manned.made, ?_⟩
  · exact Floor.leads_set (t := .leading background .start) present (fun k _ => manned.others k (by simp)) rfl
  · show Underway _ _ _ j.running _
    rw [blank]
    exact Underway.start same

/-- When a cycle lands, its batch is done with. -/
theorem land (manned : Manned root behindSites base leader? j f) {background : Bool}
    {ended : Except (Failure Error) Nat} (found : f.threads[i]? = some (.leading background (.ending ended))) :
    (∃ n, ended = .ok n) ∧ Manned root behindSites base none (j.note f i)
      ((f.land background ended).2.put i (f.land background ended).1) := by
  have present := (List.getElem?_eq_some_iff.1 found).1
  have led : leader? = some (i, .ending ended) := (manned.leads i _).1 (by rw [Floor.cycle?_eq, found]; rfl)
  subst led
  have noted : j.note f i = { j with finished := j.finished ++ [j.running], running := {} } :=
    Journal.note_ending found
  have underway : Underway root.stage (j.buckets root.stage base) (f.world.store.buckets root.scope) j.running
    (.ending ended) := manned.stands
  cases underway with
  | ending n same =>
    have landed : f.land background (.ok n) = (.finish background (.ok ()),
        { f with world := f.world.record (.commitFinish n), gate := f.gate.land (.ok ()) }) := rfl
    have still := Floor.cycle?_finish background (.ok ())
    rw [noted, landed]
    refine ⟨⟨n, rfl⟩, manned.sites, manned.queues, manned.plan, manned.placed, rfl, fun k cycle => ?_,
      fun phase => ?_, manned.made, rfl, fun key => ?_⟩
    · rw [Floor.leads_set present (fun k other => manned.others k (by simpa using Ne.symm other)) rfl, still]
      rfl
    · rw [manned.split phase, Journal.drained, Journal.drained, List.flatMap_append, List.flatMap_singleton]
      cases phase <;> simp [Queues.entries] <;> rfl
    · refine (same key).trans ?_
      rw [Journal.buckets, Journal.buckets, List.foldl_append]
      rfl

/-- A step of a leader is a turn of its cycle. -/
theorem turn (manned : Manned root behindSites base leader? j f) {background : Bool} {cycle : Cycle}
    (found : f.threads[i]? = some (.leading background cycle)) (worker : Nat) :
    ∃ cycle' qs' w', f.cycleStep worker cycle = (cycle', { f with
        ingestor := { f.ingestor with queues := cycle.left f.rootQueues :: qs' }
        world := w' }) ∧
      w'.plan = f.world.plan ∧ qs'.length = behindSites.length ∧
      Cycle.Turn f.ingestor.config.commitWorkers worker root behindSites f.world.plan f.rootQueues cycle f.behindQueues
        f.world.store cycle' qs' w'.store ∧
      Underway root.stage (j.buckets root.stage base) (f.world.store.buckets root.scope) j.running cycle := by
  have led : leader? = some (i, cycle) := (manned.leads i _).1 (by rw [Floor.cycle?_eq, found]; rfl)
  subst led
  have underway : Underway root.stage (j.buckets root.stage base) (f.world.store.buckets root.scope) j.running cycle :=
    manned.stands
  obtain ⟨q, qs, queues⟩ := List.exists_cons_of_length_eq_add_one manned.queues
  have length : qs.length = behindSites.length := by
    have length := manned.queues
    rw [queues] at length
    exact Nat.succ.inj length
  have rootQueues : f.rootQueues = q := by rw [Floor.rootQueues, queues]; rfl
  have behind : f.behindQueues = qs := by rw [Floor.behindQueues, queues]; rfl
  -- The store never fails, so the step goes well.
  have ready : Ready behindSites f.world := ⟨manned.plan ▸ FaultPlan.never_rootOnly.mild,
    fun site _ => manned.plan ▸ FaultPlan.never_spares _,
    fun site mem => manned.placed.open_ site (List.mem_cons_of_mem _ mem)⟩
  obtain ⟨cycle', qs', w', ran, plan, length', turn⟩ :=
    Cycle.run_step underway.fine f.ingestor.config.commitWorkers worker root q ready length
  rw [rootQueues, behind]
  refine ⟨cycle', qs', w', ?_, plan, length', turn, underway⟩
  simp only [Floor.cycleStep, manned.sites, queues, ran]

/-- Every step of a leader takes its cycle further. -/
theorem cycleStep (manned : Manned root behindSites base leader? j f) {background : Bool} {cycle : Cycle}
    (found : f.threads[i]? = some (.leading background cycle)) (goes : ∀ ended, cycle ≠ .ending ended)
    (worker : Nat) :
    ∃ cycle' g, f.cycleStep worker cycle = (cycle', g) ∧ g.threads = f.threads ∧
      Manned root behindSites base (some (i, cycle')) (j.note f i) (g.put i (.leading background cycle')) ∧
      ∀ phase, cycle'.Past phase → cycle.Past phase ∨ ∃ touched, cycle = .draining phase touched := by
  have present := (List.getElem?_eq_some_iff.1 found).1
  have led : leader? = some (i, cycle) := (manned.leads i _).1 (by rw [Floor.cycle?_eq, found]; rfl)
  obtain ⟨cycle', qs', w', moved, plan, length, turn, underway⟩ := manned.turn found worker
  obtain ⟨scopes, underway', past⟩ := underway.turn (manned.plan ▸ FaultPlan.never_spares _) manned.placed turn
  rw [Journal.note_leading found goes]
  refine ⟨cycle', _, moved, rfl, ⟨manned.sites, congrArg (· + 1) length, plan.trans manned.plan,
    manned.placed.of_length scopes, manned.gate.trans (by rw [led]; rfl), ?_, fun phase => ?_, manned.made,
    underway'⟩, past⟩
  · exact Floor.leads_set (t := .leading background cycle') present
      (fun k other => manned.others k (by simpa [led] using Ne.symm other)) rfl
  · have drained := cycle.entries_drawn j.running f.rootQueues phase
    rw [manned.split phase, Journal.drained, List.append_assoc, ← drained, ← List.append_assoc]
    rfl

/-- Every step of every thread preserves what holds at any moment. -/
theorem step (manned : Manned root behindSites base leader? j f) (stepped : f.step? i worker = some g) :
    ∃ leader?', Manned root behindSites base leader?' (j.note f i) g := by
  obtain ⟨t, found, moves⟩ := Floor.moves_of_step? stepped
  cases moves.acts found with
  | idles idle idles =>
    rw [Journal.note_idle found idle]
    exact ⟨leader?, manned.idles idles⟩
  | push phase doc => exact ⟨leader?, manned.push found⟩
  | leads background free =>
    obtain rfl := manned.leaderless free
    rw [Journal.note_idle found trivial]
    exact ⟨_, manned.start_cycle found⟩
  | lead background goes =>
    obtain ⟨cycle', g', moved, -, manned', -⟩ := manned.cycleStep found goes worker
    rw [moved]
    exact ⟨_, manned'⟩
  | land background ended => exact ⟨none, (manned.land found).2⟩

/-- What holds at any moment of a run. -/
theorem run {schedule : Floor.Schedule} (manned : Manned root behindSites base leader? j f)
    (ran : f.run? schedule = some g) : ∃ leader?', Manned root behindSites base leader?' (j.keep f schedule) g :=
  @Floor.run?_induction (fun j f => ∃ leader?, Manned root behindSites base leader? j f)
    (fun _ _ _ _ _ ⟨_, manned⟩ stepped => manned.step stepped) schedule j f g ⟨leader?, manned⟩ ran

end Manned

end Rollup.Concurrent
