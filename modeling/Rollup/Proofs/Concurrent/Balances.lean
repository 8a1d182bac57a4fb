import Rollup.Proofs.Concurrent.Coverage
import Rollup.Proofs.Concurrent.Dealing
import Rollup.Proofs.Ingest.Bookkeeping
import Rollup.Proofs.Ingest.Recovery

/-!
# How threads keep the books

Whatever the threads on an ingestor do and in whatever order, and whatever the store refuses, the books
balance: every document that came to a stage was brought by a call or handed on, and unless a cycle is
under way, as many documents were handed on as the keys of the stages before the last make
(`counters_balance`).

While a crew is at work, what it has written is due and not yet handed on (`Cycle.Booked`).
-/

namespace Rollup

open Books Ingest Rollup.Action

namespace Ingest

/-! ## Opening -/

theorem silent_openChild {σ : Type} (scope : ScopeId) (name : Key) :
    (Access.openChild scope name : Action Error σ ScopeId).Enters Silent :=
  (silent_call .child scope (some name)).after
    (fun _ => silent_getWorld.after (fun _ _ _ _ => ⟨rfl, nofun, rfl⟩) fun _ _ => ⟨nofun, rfl⟩)
    fun _ _ => ⟨nofun, rfl⟩

/-- Opening the scopes of stages enters nothing, and gives a site for each. -/
theorem enters_openSites {σ : Type} (chainStore : String) (scope : ScopeId) (stages : List Stage) :
    (Ingestor.openSites chainStore scope stages : Action Error σ (List Site)).Enters fun b r b' =>
      b' = b ∧ ∀ sites, r = .ok sites → sites.length = stages.length := by
  induction stages generalizing scope with
  | nil => exact .of_pure fun b => ⟨rfl, fun sites same => Except.ok.inj same ▸ rfl⟩
  | cons stage rest ih =>
    cases rest with
    | nil => exact .of_pure fun b => ⟨rfl, fun sites same => Except.ok.inj same ▸ rfl⟩
    | cons next others =>
      refine (silent_openChild scope _).after (fun child => ((ih child).bind fun _ => enters_pure _).mono ?_)
        fun b e => ⟨rfl, nofun⟩
      rintro b r b' (⟨sites, m, ⟨rfl, length⟩, rfl, rfl⟩ | ⟨f, ⟨rfl, -⟩, rfl⟩)
      · exact ⟨rfl, fun sites' same => Except.ok.inj same ▸ congrArg (· + 1) (length sites rfl)⟩
      · exact ⟨rfl, nofun⟩

theorem enters_openAt {σ : Type} (scope : ScopeId) (p : Pipeline) (config : Config) :
    (Ingestor.openAt scope p config : Action Error σ Ingestor).Enters fun b r b' =>
      b' = b ∧ ∀ i, r = .ok i → i.sites.length = p.stages.length := by
  have checked : (Action.ofExcept (config.validate.mapError .badConfig) : Action Error σ Unit).Enters Silent := by
    cases config.validate with
    | ok _ => exact silent_pure _
    | error e => exact fun _ _ _ => ⟨rfl, nofun, rfl⟩
  refine checked.after (fun _ => ((enters_openSites config.chainStore scope p.stages).bind fun _ =>
    enters_pure _).mono ?_) fun b e => ⟨rfl, nofun⟩
  rintro b r b' (⟨sites, m, ⟨rfl, length⟩, rfl, rfl⟩ | ⟨f, ⟨rfl, -⟩, rfl⟩)
  · exact ⟨rfl, fun i same => Except.ok.inj same ▸ length sites rfl⟩
  · exact ⟨rfl, nofun⟩

end Ingest

namespace Concurrent

variable {σ : Type}

/-! ## Crews -/

/-- A worker that has not crashed, and is about to write what a bucket has come to. -/
structure Worker.Fit (w : Worker) : Prop where
  sound : w.crashed = false
  ready : ∀ r, w.ready = some r → r.Fair

/-- A crew that nothing but errors has befallen. -/
structure Crew.Fit (c : Crew) : Prop where
  workers : ∀ w ∈ c.workers, w.Fit
  single : c.divided = false → c.workers.length = 1

theorem Worker.enters_step (site : Site) (phase : Phase) {w : Worker} (fit : w.Fit) :
    (w.step site phase : Action Error σ Worker).Enters fun b r b' =>
      ∃ w' rs, r = .ok w' ∧ w'.Fit ∧ w'.progress.revisions = w.progress.revisions ++ rs ∧ ∀ n, Noted n rs b b' := by
  obtain ⟨todo, ready, progress, crashed⟩ := w
  obtain rfl : crashed = false := fit.sound
  have idle (todo : List Group) (progress : Progress) : Worker.Fit ⟨todo, none, progress, false⟩ := ⟨rfl, nofun⟩
  rw [step, if_neg Bool.false_ne_true]
  -- A worker that has a revision ready writes it; one that has not plans the next, which enters nothing.
  cases ready with
  | some rev =>
    refine ((enters_write site rev).attempt_bind fun ended => enters_pure _).mono ?_
    rintro b r b' ⟨_, m, ⟨rfl, rfl⟩ | ⟨⟨e, rfl⟩, rfl⟩, rfl, rfl⟩
    · exact ⟨_, [rev], rfl, idle _ _, rfl, fun n => (fit.ready rev rfl).noted n b⟩
    · exact ⟨_, [], rfl, idle _ _, (List.append_nil _).symm, fun n => .refl n _⟩
  | none =>
    cases todo with
    | nil => exact .of_pure fun b => ⟨_, [], rfl, fit, (List.append_nil _).symm, fun n => .refl n b⟩
    | cons group rest =>
      refine ((enters_plan? site phase group).attempt_bind (T := fun ended b r b' => b' = b ∧
        (ended ≠ .error .crash → (∀ rev, ended = .ok (some rev) → rev.Fair) →
          ∃ w', r = .ok w' ∧ w'.Fit ∧ w'.progress.revisions = progress.revisions)) fun ended => ?_).mono ?_
      · rcases ended with (e | _) | _ | rev
        · exact .of_pure fun b => ⟨rfl, fun _ _ => ⟨_, rfl, idle _ _, rfl⟩⟩
        · exact .of_pure fun b => ⟨rfl, fun ends => absurd rfl ends⟩
        · exact .of_pure fun b => ⟨rfl, fun _ _ => ⟨_, rfl, idle _ _, List.append_nil _⟩⟩
        · refine .of_pure fun b => ⟨rfl, fun _ fair => ⟨_, rfl, ⟨rfl, fun made same => fair made ?_⟩, rfl⟩⟩
          exact congrArg Except.ok same
      · rintro b r b' ⟨ended, m, ⟨ends, entered, fair⟩, rfl, goes⟩
        obtain ⟨w', ran, fit', same⟩ := goes ends fair
        exact ⟨w', [], ran, fit', same.trans (List.append_nil _).symm, fun n => .of_entered (entered n)⟩

theorem Crew.enters_step (site : Site) (phase : Phase) {c : Crew} (fit : c.Fit) (i : Nat) :
    (c.step site phase i : Action Error σ Crew).Enters fun b r b' =>
      ∃ c' rs, r = .ok c' ∧ c'.Fit ∧ c'.written.Perm (c.written ++ rs) ∧ ∀ n, Noted n rs b b' := by
  obtain ⟨divided, workers⟩ := c
  rw [step]
  cases found : workers[i]? with
  | none => exact .of_pure fun b => ⟨_, [], rfl, fit, List.Perm.of_eq (List.append_nil _).symm, fun n => .refl n b⟩
  | some w =>
    obtain ⟨present, rfl⟩ := List.getElem?_eq_some_iff.1 found
    refine ((Worker.enters_step site phase (fit.workers _ (List.getElem_mem present))).bind fun _ =>
      enters_pure _).mono ?_
    rintro b r b' (⟨w', m, ⟨_, rs, ran, fit', more, noted⟩, rfl, rfl⟩ | ⟨f, ⟨_, _, wrong, -⟩, -⟩)
    · obtain rfl := Except.ok.inj ran
      refine ⟨_, rs, rfl, ⟨fun v mem => ?_, fun alone => ?_⟩, ?_, noted⟩
      · rcases List.mem_or_eq_of_mem_set mem with old | rfl
        · exact fit.workers v old
        · exact fit'
      · rw [← fit.single alone]
        exact List.length_set
      -- What this worker has written stands among what the others have, so the lists are only permuted.
      · obtain ⟨front, back, split, -, replaced⟩ := @List.exists_of_set _ i w' workers present
        show Crew.written ⟨divided, workers.set i w'⟩ |>.Perm _
        rw [replaced, Crew.written, Crew.written]
        conv_rhs => rw [split]
        simp only [List.flatMap_append, List.flatMap_cons, more, List.append_assoc]
        exact ((List.perm_append_comm.append_left _).append_left _)
    · cases wrong

theorem Crew.fit_ofGroups (workers : Nat) (groups : List Group) : (Crew.ofGroups workers groups).Fit := by
  rw [ofGroups]
  split
  · refine ⟨fun w mem => ?_, fun alone => by cases alone⟩
    obtain ⟨part, -, rfl⟩ := List.mem_map.1 mem
    exact ⟨rfl, fun _ ready => by cases ready⟩
  · refine ⟨fun w mem => ?_, fun _ => rfl⟩
    obtain rfl := List.mem_singleton.1 mem
    exact ⟨rfl, fun _ ready => by cases ready⟩

theorem Crew.written_ofGroups (workers : Nat) (groups : List Group) : (Crew.ofGroups workers groups).written = [] := by
  rw [ofGroups]
  split
  · rw [written, List.flatMap_map]
    exact List.flatMap_eq_nil_iff.2 fun _ _ => rfl
  · rfl

/-! ## Cycles -/

/-- The only cycle that is under way has touched `k` keys, and `a` documents are yet to be handed on. -/
structure Poised (n k : Nat) (a : Int) (b : Books) : Prop where
  underway : b.underway = [k]
  arrears : b.arrears n = a

theorem Poised.entered {n k k' : Nat} {a a' : Int} {b b' : Books} (poised : Poised n k a b)
    (entered : Entered n k' a' b b') : Poised n (k + k') (a + a') b' where
  underway := by rw [entered.underway, poised.underway]; rfl
  arrears := by rw [entered.arrears, poised.arrears]

theorem Poised.inside {n k : Nat} {a : Int} {b : Books} (poised : Poised n k a b) {behindSites : List Site}
    (length : behindSites.length + 1 = n) : Inside n behindSites b := by
  rw [Inside, poised.underway, ← length]
  exact Nat.add_comm _ _

/-- How the books stand in the midst of a cycle. -/
def Cycle.Booked (n : Nat) (b : Books) : Cycle → Prop
  | .draining _ touched | .flushing touched => Poised n touched 0 b
  | .revising _ touched crew =>
    crew.Fit ∧ Poised n (touched + crew.written.length) (b.share n crew.written) b
  | .ending ended => ∃ k, Poised n k 0 b ∧ (ended = .ok k ∨ ∃ e, ended = .error (.error e))

/-- Nothing but errors has befallen the crew that is at work. -/
def Cycle.Fit : Cycle → Prop
  | .revising _ _ crew => crew.Fit
  | _ => True

theorem Cycle.Booked.fit {n : Nat} {b : Books} {cycle : Cycle} (booked : cycle.Booked n b) : cycle.Fit := by
  cases cycle with
  | revising _ _ _ => exact booked.1
  | draining _ _ | flushing _ | ending _ => trivial

theorem Cycle.booked_after {n touched : Nat} {b : Books} (poised : Poised n touched 0 b) (phase : Phase) :
    (Cycle.after phase touched).Booked n b := by
  cases phase <;> exact poised

/-- What the crew of a cycle has written and not yet handed on. -/
def Cycle.written : Cycle → List Revision
  | .revising _ _ crew => crew.written
  | .draining _ _ | .flushing _ | .ending _ => []

theorem Cycle.Booked.arrears_eq {n : Nat} {b : Books} {cycle : Cycle} (booked : cycle.Booked n b) :
    b.arrears n = (if 1 < n then weight cycle.written else 0 : Nat) := by
  cases cycle with
  | draining _ _ | flushing _ => rw [Poised.arrears booked, written, weight, ite_self, Nat.cast_zero]
  | revising _ _ _ =>
    rw [booked.2.arrears, share, booked.2.underway, Nat.cast_ite, Nat.cast_zero]
    rfl
  | ending _ =>
    obtain ⟨_, poised, -⟩ := booked
    rw [poised.arrears, written, weight, ite_self, Nat.cast_zero]

/-- How a step of a cycle takes the books on. -/
def Cycle.Steps (n : Nat) (cycle : Cycle) (b : Books) (r : Except (Failure Error) Cycle) (b' : Books) : Prop :=
  cycle.Booked n b → ∃ cycle' k a, r = .ok cycle' ∧ Entered n k a b b' ∧ cycle'.Booked n b'

section Cycles

variable {n : Nat} (workers worker : Nat) (site : Site) {behindSites : List Site}

theorem Cycle.enters_draining (phase : Phase) (touched : Nat) :
    ((Cycle.draining phase touched).step workers site behindSites worker).Enters
      (Steps n (.draining phase touched)) := by
  rw [step]
  refine (smooth_drain phase).then fun entries => ?_
  split
  · exact .of_pure fun b poised => ⟨_, 0, 0, rfl, .refl n b, booked_after poised phase⟩
  · refine .of_pure fun b poised => ?_
    have none := Crew.written_ofGroups workers (groupByKey entries)
    refine ⟨_, 0, 0, rfl, .refl n b, Crew.fit_ofGroups workers _, ?_⟩
    rw [none, share, weight, Nat.cast_zero, ite_self]
    exact poised

theorem Cycle.enters_revising (length : behindSites.length + 1 = n) (phase : Phase) (touched : Nat) {crew : Crew}
    (fit : crew.Fit) :
    ((Cycle.revising phase touched crew).step workers site behindSites worker).Enters
      (Steps n (.revising phase touched crew)) := by
  rw [step]
  cases finished : crew.result? with
  | none =>
    refine ((Crew.enters_step site phase fit worker).bind fun _ => enters_pure _).mono ?_
    rintro b r b' (⟨crew', m, ⟨_, rs, ran, fit', written, noted⟩, rfl, rfl⟩ | ⟨f, ⟨_, _, wrong, -⟩, -⟩) ⟨-, poised⟩
    · obtain rfl := Except.ok.inj ran
      refine ⟨_, _, _, rfl, noted n, fit', ?_⟩
      rw [share_perm written, written.length_eq, List.length_append, share_append,
        Entered.share (noted n), Entered.share (noted n), ← Nat.add_assoc]
      exact poised.entered (noted n)
    · cases wrong
  | some ended =>
    obtain ⟨p, rfl, revisions⟩ := Crew.revisions_of_result? (fun w mem => (fit.workers w mem).sound) fit.single finished
    refine ((enters_finishPhase (enters_behind n workers behindSites) p).attempt_bind fun ended => enters_pure _).mono ?_
    rintro b r b' ⟨ended, m, goes, rfl, rfl⟩ ⟨-, poised⟩
    obtain ⟨ran, entered⟩ := goes (poised.inside length)
    have poised' := poised.entered entered
    -- What was noted write by write is now booked as revised.
    rw [revisions, Int.add_right_neg] at poised'
    refine ⟨_, _, _, rfl, entered, ?_⟩
    rcases ran with rfl | ⟨e, rfl⟩
    · rw [revisions]
      exact booked_after poised' phase
    · exact ⟨_, poised', .inr ⟨e, rfl⟩⟩

theorem Cycle.enters_flushing (length : behindSites.length + 1 = n) (touched : Nat) :
    ((Cycle.flushing touched).step workers site behindSites worker).Enters (Steps n (.flushing touched)) := by
  have flush := (silent_call .commit site.scope none).after (fun _ => enters_behind n workers behindSites)
    fun b e _ => ⟨nofun, .refl n b⟩
  refine (flush.attempt_bind fun ended => enters_pure _).mono ?_
  rintro b r b' ⟨ended, m, goes, rfl, rfl⟩ poised
  obtain ⟨ends, entered⟩ := goes (Poised.inside poised length)
  refine ⟨_, _, _, rfl, entered, touched, poised.entered entered, ?_⟩
  rcases ended with (e | _) | _
  · exact .inr ⟨e, rfl⟩
  · exact absurd rfl ends
  · exact .inl rfl

/-- Every step of a cycle takes the books on. -/
theorem Cycle.enters_step (length : behindSites.length + 1 = n) {cycle : Cycle} (fit : cycle.Fit) :
    (cycle.step workers site behindSites worker).Enters (Steps n cycle) := by
  cases cycle with
  | draining phase touched => exact enters_draining workers worker site phase touched
  | revising phase touched crew => exact enters_revising workers worker site length phase touched fit
  | flushing touched => exact enters_flushing workers worker site length touched
  | ending ended =>
    exact .of_pure fun b booked => ⟨_, 0, 0, rfl, .refl n b, booked⟩

end Cycles

/-! ## Threads -/

/-- Whether a thread has yet to bring its document. -/
def Thread.brings : Thread → Bool
  | .pushing _ _ => true
  | _ => false

/-- The number of documents that threads have yet to bring. -/
def Floor.toBring (f : Floor) : Nat := f.threads.countP Thread.brings

/-- Who leads, if anybody does: then the gate is shut, and nobody else leads. -/
structure Led (leader? : Option (Nat × Cycle)) (f : Floor) : Prop where
  gate : f.gate.running = leader?.isSome
  leads : ∀ i cycle, f.cycle? i = some cycle ↔ leader? = some (i, cycle)

/-- The books of a floor at any moment, with its leader if there is one: `n` is the number of stages, and
`total` that of the documents that calls bring. -/
structure Kept (n total : Nat) (leader? : Option (Nat × Cycle)) (f : Floor) : Prop where
  sites : f.ingestor.sites.length = n ∧ f.ingestor.sites ≠ []
  civil : f.world.plan.Civil
  led : Led leader? f
  intake : f.world.books.intake + f.toBring = total
  honest : f.world.books.honest = true
  idle : leader? = none → f.world.books.underway = [] ∧ f.world.books.arrears n = 0
  busy : ∀ leader ∈ leader?, leader.2.Booked n f.world.books

section Threads

variable {n total i worker : Nat} {leader? : Option (Nat × Cycle)} {f g : Floor} {t : Thread}

theorem Led.none_of_free (led : Led leader? f) (free : f.gate.running = false) : leader? = none := by
  rw [← Option.not_isSome_iff_eq_none, ← led.gate, free]
  exact Bool.false_ne_true

theorem Led.eq_some (led : Led leader? f) {background : Bool} {cycle : Cycle}
    (found : f.threads[i]? = some (.leading background cycle)) : leader? = some (i, cycle) :=
  (led.leads i cycle).1 (by rw [Floor.cycle?_eq, found]; rfl)

/-- A thread that does not lead moves on and still does not. -/
theorem Led.quiet (led : Led leader? f) (found : f.threads[i]? = some t) (still : t.cycle? = none) {u : Thread}
    (threads : g.threads = f.threads.set i u) (quiet : u.cycle? = none) (gate : g.gate = f.gate) : Led leader? g where
  gate := gate ▸ led.gate
  leads k cycle := by
    rw [Floor.cycle?_of_quiet found still threads quiet]
    exact led.leads k cycle

/-- The only thread that may lead moves on. -/
theorem Led.alone (led : Led leader? f) (found : f.threads[i]? = some t) (alone : ∀ leader ∈ leader?, leader.1 = i)
    {u : Thread} (threads : g.threads = f.threads.set i u) (gate : g.gate.running = u.cycle?.isSome) :
    Led (u.cycle?.map (i, ·)) g where
  gate := by rw [gate, Option.isSome_map]
  leads := by
    refine Floor.leads_set (List.getElem?_eq_some_iff.1 found).1 (fun k other => ?_) threads
    cases leads : f.cycle? k with
    | none => rfl
    | some cycle => exact absurd (alone _ ((led.leads k cycle).1 leads)) other

theorem Thread.brings_eq_false_iff : t.brings = false ↔ ∀ phase doc, t ≠ .pushing phase doc := by
  cases t <;> simp [brings]

/-- A step leaves one document less to be brought if it brings one. -/
theorem Floor.Moves.toBring (moves : f.Moves i worker t g) (found : f.threads[i]? = some t) :
    g.toBring + (if t.brings then 1 else 0) = f.toBring := by
  obtain ⟨u, more, threads, calm⟩ := moves.threads
  have quiet : ∀ v ∈ u :: more, v.brings = false := by
    intro v mem
    rw [Thread.brings_eq_false_iff]
    rintro phase doc rfl
    exact calm phase doc mem
  have none : more.countP Thread.brings = 0 := by
    rw [List.countP_eq_zero]
    intro v mem
    rw [quiet v (List.mem_cons_of_mem _ mem)]
    exact Bool.false_ne_true
  obtain ⟨present, rfl⟩ := List.getElem?_eq_some_iff.1 found
  have counted : (if f.threads[i].brings then 1 else 0) ≤ f.threads.countP Thread.brings := by
    split
    · next brings => exact List.countP_pos_iff.2 ⟨_, List.getElem_mem present, brings⟩
    · exact Nat.zero_le _
  rw [Floor.toBring, Floor.toBring, threads, List.countP_append, none, List.countP_set present,
    quiet u List.mem_cons_self]
  simp only [Bool.false_eq_true, if_false, Nat.add_zero]
  omega

/-- Queueing a document brings it, whether or not it is rejected. -/
theorem Floor.push_books {root : Site} {behindSites : List Site} (sites : f.ingestor.sites = root :: behindSites)
    (civil : f.world.plan.Civil) (phase : Phase) (doc : Document) :
    (f.push phase doc).2.world.plan = f.world.plan ∧ (f.push phase doc).2.world.books = f.world.books.bring 1 ∧
      (f.push phase doc).2.ingestor.sites = f.ingestor.sites := by
  have entered := enters_enqueue (ε := Error) root.stage phase doc (f.ingestor.queues.headD {}) f.world civil
  revert entered
  simp only [push, Ingestor.enqueue, run_bind, run_getLocal, Ingestor.rootStage?, sites, List.head?_cons,
    Option.map_some, Ingestor.onQueues, here, run_zoom]
  rcases (enqueue root.stage phase doc : Action Error Queues Unit).run (f.ingestor.queues.headD {}) f.world with
    ⟨_ | _, q, w⟩
  · rintro ⟨-, wrong, -⟩
    cases wrong
  · rintro ⟨plan, -, books⟩
    exact ⟨plan, books, rfl⟩

theorem Floor.push_frame (f : Floor) (phase : Phase) (doc : Document) :
    (f.push phase doc).2.threads = f.threads ∧ (f.push phase doc).2.gate = f.gate ∧
      (f.push phase doc).1.cycle? = none := by
  rw [push]
  rcases (Ingestor.enqueue phase doc : Action Error Ingestor (Option Nat)).run f.ingestor f.world with
    ⟨_ | _ | _, _, _⟩ <;> exact ⟨rfl, rfl, rfl⟩

/-- The event that reports the end of a cycle is the last of it. -/
theorem Floor.land_books (civil : f.world.plan.Civil) (background : Bool) {ended : Except (Failure Error) Nat}
    (sane : ended ≠ .error .crash) :
    (f.land background ended).2.world.plan = f.world.plan ∧
      (f.land background ended).2.world.books = f.world.books.enter (Ingest.ending ended) := by
  obtain ⟨plan, entered⟩ := enters_finishCycle (σ := Unit) ended () f.world civil
  exact ⟨plan, (entered sane).2⟩

theorem Floor.land_frame (f : Floor) (background : Bool) (ended : Except (Failure Error) Nat) :
    (f.land background ended).2.threads = f.threads ∧ (f.land background ended).2.ingestor = f.ingestor ∧
      (f.land background ended).2.gate.running = false ∧ (f.land background ended).1.cycle? = none := by
  rcases ended with (e | _) | k <;> exact ⟨rfl, rfl, rfl, cycle?_finish _ _⟩

/-- A step of a leader takes the books on. -/
theorem Floor.cycleStep_books {root : Site} {behindSites : List Site}
    (sites : f.ingestor.sites = root :: behindSites) (length : behindSites.length + 1 = n)
    (civil : f.world.plan.Civil) {cycle : Cycle} (booked : cycle.Booked n f.world.books) (worker : Nat) :
    (f.cycleStep worker cycle).2.world.plan = f.world.plan ∧
      (∃ k a, Entered n k a f.world.books (f.cycleStep worker cycle).2.world.books) ∧
      (f.cycleStep worker cycle).1.Booked n (f.cycleStep worker cycle).2.world.books ∧
      (f.cycleStep worker cycle).2.ingestor.sites = f.ingestor.sites ∧
      (f.cycleStep worker cycle).2.gate = f.gate ∧ (f.cycleStep worker cycle).2.threads = f.threads := by
  obtain ⟨plan, steps⟩ := Cycle.enters_step f.ingestor.config.commitWorkers worker root length booked.fit
    f.ingestor.queues f.world civil
  obtain ⟨cycle', k, a, ran, entered, booked'⟩ := steps booked
  simp only [cycleStep, sites, ran]
  exact ⟨plan, ⟨k, a, entered⟩, booked', trivial, trivial, trivial⟩

theorem Cycle.Booked.bring {b : Books} {cycle : Cycle} (booked : cycle.Booked n b) (k : Nat) :
    cycle.Booked n (b.bring k) := by
  cases cycle with
  | draining _ _ | flushing _ => exact ⟨booked.underway, booked.arrears⟩
  | revising _ _ _ => exact ⟨booked.1, booked.2.underway, booked.2.arrears⟩
  | ending _ =>
    obtain ⟨touched, poised, ran⟩ := booked
    exact ⟨touched, ⟨poised.underway, poised.arrears⟩, ran⟩

namespace Kept

/-- Where no document is brought, as many are left to be brought as before. -/
theorem intake_of_quiet (kept : Kept n total leader? f) (moves : f.Moves i worker t g) (found : f.threads[i]? = some t)
    (quiet : t.brings = false) (same : g.world.books.intake = f.world.books.intake) :
    g.world.books.intake + g.toBring = total := by
  have toBring := moves.toBring found
  rw [quiet, if_neg Bool.false_ne_true, Nat.add_zero] at toBring
  rw [same, toBring]
  exact kept.intake

theorem sites_eq (kept : Kept n total leader? f) :
    ∃ root behindSites, f.ingestor.sites = root :: behindSites ∧ behindSites.length + 1 = n := by
  obtain ⟨root, behindSites, sites⟩ := List.exists_cons_of_ne_nil kept.sites.2
  exact ⟨root, behindSites, sites, by rw [← kept.sites.1, sites, List.length_cons]⟩

theorem idles (kept : Kept n total leader? f) (moves : f.Moves i worker t g) (found : f.threads[i]? = some t)
    (idle : t.Idle) (idles : f.Idles g) : Kept n total leader? g := by
  have quiet : t.brings = false := by
    cases t <;> first | rfl | exact idle.elim
  have world := idles.world
  exact {
    sites := idles.sites ▸ kept.sites
    civil := world ▸ kept.civil
    led := ⟨idles.gate ▸ kept.led.gate, fun k cycle => idles.cycles k ▸ kept.led.leads k cycle⟩
    intake := kept.intake_of_quiet moves found quiet (congrArg (fun w => w.books.intake) world)
    honest := world ▸ kept.honest
    idle := world ▸ kept.idle
    busy := world ▸ kept.busy }

theorem push (kept : Kept n total leader? f) {phase : Phase} {doc : Document}
    (found : f.threads[i]? = some (.pushing phase doc)) (moves : f.Moves i worker (.pushing phase doc) g)
    (next : g = (f.push phase doc).2.put i (f.push phase doc).1) : Kept n total leader? g := by
  obtain ⟨root, behindSites, sites, -⟩ := kept.sites_eq
  obtain ⟨plan, books, sites'⟩ := Floor.push_books sites kept.civil phase doc
  obtain ⟨threads, gate, still⟩ := f.push_frame phase doc
  have toBring := moves.toBring found
  have intake := kept.intake
  subst next
  exact {
    sites := sites'.symm ▸ kept.sites
    civil := plan.symm ▸ kept.civil
    led := kept.led.quiet found rfl (by rw [Floor.put, threads]) still gate
    intake := by
      -- One document more has come in, and one call less is about to bring one.
      have brought : (f.push phase doc).2.world.books.intake = f.world.books.intake + 1 := by
        rw [books]
        simp only [Books.intake, Books.bring]
        push_cast
        omega
      show (f.push phase doc).2.world.books.intake + _ = _
      have brings : Thread.brings (.pushing phase doc) = true := rfl
      rw [brings, if_pos rfl] at toBring
      omega
    honest := books ▸ kept.honest
    idle none := books ▸ kept.idle none
    busy leader mem := books ▸ (kept.busy leader mem).bring 1 }

theorem start_cycle (kept : Kept n total none f) {background : Bool}
    (found : f.threads[i]? = some (.arriving background)) (moves : f.Moves i worker (.arriving background) g)
    (next : g = ({ f with gate := { f.gate with running := true } }.record .commitStart).put i
      (.leading background .start)) : Kept n total (some (i, .start)) g := by
  obtain ⟨underway, arrears⟩ := kept.idle rfl
  have begun : Cycle.start.Booked n (f.world.books.enter .commitStart) := ⟨congrArg (0 :: ·) underway, arrears⟩
  have books : g.world.books = f.world.books.enter .commitStart := by
    rw [next]
    exact f.world.books_record .commitStart
  have led : Led (some (i, .start)) g := by
    subst next
    exact kept.led.alone (u := .leading background .start) found nofun rfl rfl
  exact {
    sites := by rw [next]; exact kept.sites
    civil := by rw [next]; exact kept.civil
    led := led
    intake := kept.intake_of_quiet moves found rfl (by rw [books]; rfl)
    honest := by rw [books]; exact kept.honest
    idle := nofun
    busy := fun leader mem => by
      cases mem
      rw [books]
      exact begun }

theorem cycleStep (kept : Kept n total leader? f) {background : Bool} {cycle : Cycle}
    (found : f.threads[i]? = some (.leading background cycle)) (moves : f.Moves i worker (.leading background cycle) g)
    (next : g = (f.cycleStep worker cycle).2.put i (.leading background (f.cycleStep worker cycle).1)) :
    Kept n total (some (i, (f.cycleStep worker cycle).1)) g := by
  obtain rfl := kept.led.eq_some found
  obtain ⟨root, behindSites, sites, length⟩ := kept.sites_eq
  obtain ⟨plan, ⟨k, a, entered⟩, booked, sites', gate, threads⟩ :=
    Floor.cycleStep_books sites length kept.civil (kept.busy _ rfl) worker
  have world : g.world = (f.cycleStep worker cycle).2.world := by rw [next]; rfl
  have led : Led (some (i, (f.cycleStep worker cycle).1)) g := by
    refine kept.led.alone (u := .leading background (f.cycleStep worker cycle).1) found ?_ ?_ ?_
    · rintro _ ⟨⟩
      rfl
    · rw [next, Floor.put, threads]
    · rw [next]
      exact (congrArg Gate.running gate).trans kept.led.gate
  exact {
    sites := by rw [next]; exact sites'.symm ▸ kept.sites
    civil := by rw [world, plan]; exact kept.civil
    led := led
    intake := kept.intake_of_quiet moves found rfl (by rw [world]; exact entered.intake)
    honest := by rw [world]; exact entered.honest kept.honest
    idle := fun none => by cases none
    busy := fun leader mem => by
      cases mem
      rw [world]
      exact booked }

theorem land (kept : Kept n total leader? f) {background : Bool} {ended : Except (Failure Error) Nat}
    (found : f.threads[i]? = some (.leading background (.ending ended)))
    (moves : f.Moves i worker (.leading background (.ending ended)) g)
    (next : g = (f.land background ended).2.put i (f.land background ended).1) : Kept n total none g := by
  obtain rfl := kept.led.eq_some found
  obtain ⟨k, poised, ran⟩ := kept.busy _ rfl
  have sane : ended ≠ .error .crash := by
    rcases ran with rfl | ⟨e, rfl⟩ <;> exact fun crash => by cases crash
  obtain ⟨plan, books⟩ := Floor.land_books kept.civil background sane
  obtain ⟨threads, ingestor, gate, still⟩ := f.land_frame background ended
  obtain ⟨underway, arrears, intake, honest⟩ := enter_ending (n := n) poised.underway ran
  rw [← books] at underway arrears intake honest
  have world : g.world = (f.land background ended).2.world := by rw [next]; rfl
  have led : Led none g := by
    have led := kept.led.alone (g := g) (u := (f.land background ended).1) found ?_ ?_ ?_
    · rwa [still] at led
    · rintro _ ⟨⟩
      rfl
    · rw [next, Floor.put, threads]
    · rw [next, still]
      exact gate
  exact {
    sites := by rw [next]; exact ingestor.symm ▸ kept.sites
    civil := by rw [world, plan]; exact kept.civil
    led := led
    intake := kept.intake_of_quiet moves found rfl (by rw [world, intake])
    honest := by rw [world]; exact honest kept.honest
    idle := fun _ => by
      rw [world]
      exact ⟨underway, arrears.trans poised.arrears⟩
    busy := fun _ mem => by cases mem }

/-- Every step of every thread keeps the books. -/
theorem step (kept : Kept n total leader? f) (stepped : f.step? i worker = some g) :
    ∃ leader?', Kept n total leader?' g := by
  obtain ⟨t, found, moves⟩ := Floor.moves_of_step? stepped
  cases moves.acts found with
  | idles idle idles => exact ⟨leader?, kept.idles moves found idle idles⟩
  | push phase doc => exact ⟨leader?, kept.push found moves rfl⟩
  | leads background free =>
    obtain rfl := kept.led.none_of_free free
    exact ⟨_, kept.start_cycle found moves rfl⟩
  | lead background goes => exact ⟨_, kept.cycleStep found moves rfl⟩
  | land background ended => exact ⟨none, kept.land found moves rfl⟩

/-- What holds of the books after a run. -/
theorem run (kept : Kept n total leader? f) {schedule : Floor.Schedule} (ran : f.run? schedule = some g) :
    ∃ leader?', Kept n total leader?' g :=
  @Floor.run?_induction (fun _ f => ∃ leader?, Kept n total leader? f)
    (fun _ _ _ _ _ ⟨_, kept⟩ stepped => kept.step stepped) schedule {} f g ⟨leader?, kept⟩ ran

/-- Calls on an ingestor that was opened find empty books. -/
theorem start {t : Ingestor.Session} (sites : t.1.sites.length = n) (some_ : 0 < n) (civil : t.2.plan.Civil)
    (blank : t.2.books = {}) {calls : List Thread} (fresh : ∀ call ∈ calls, call.IsCall) :
    Kept n (calls.countP Thread.brings) none (.start t calls) where
  sites := ⟨sites, List.ne_nil_of_length_pos (sites ▸ some_)⟩
  civil := civil
  led := ⟨rfl, fun i cycle => by simp [Floor.cycle?_start fresh]⟩
  intake := by
    show t.2.books.intake + _ = _
    rw [blank]
    exact Int.zero_add _
  honest := by
    show t.2.books.honest = true
    rw [blank]
  idle _ := by
    show t.2.books.underway = [] ∧ t.2.books.arrears n = 0
    rw [blank]
    exact ⟨rfl, rfl⟩
  busy := nofun

end Kept

end Threads

/-! ## Runs -/

/-- The counters `c` of an ingestor with `n` stages balance when `calls` calls bring documents to it. -/
structure Balanced (n calls : Nat) (g : Floor) (c : Counters) (b : Books) : Prop where
  /-- Whatever came to a stage was brought by a call or handed on. -/
  documents : c.docsQueued + c.docsRejected + g.toBring = calls + c.chainForwards
  /-- Unless a commit is running, all that were started have ended. -/
  commits : g.gate.running = false → c.commitsStarted = c.commitsFinished + c.commitsFailed
  /-- Unless a commit is running, every key of a stage before the last has made its documents for the one behind. -/
  forwards : g.gate.running = false →
    c.chainForwards = b.keysBefore n .inserted + 2 * (b.keysBefore n .merged + b.keysBefore n .unreduced)
  /-- While a commit is running, only what its crew has written is missing. -/
  forwarding : ∀ i cycle, g.cycle? i = some cycle →
    c.chainForwards + (if 1 < n then weight cycle.written else 0) =
      b.keysBefore n .inserted + 2 * (b.keysBefore n .merged + b.keysBefore n .unreduced)
  /-- Every cycle that succeeded has reported as many keys as it touched. -/
  reported : ∀ before k after, g.world.events.toList = before ++ .commitFinish k :: after →
    (Books.ofEvents before).underway.head? = some k

theorem Kept.balanced {n total : Nat} {leader? : Option (Nat × Cycle)} {g : Floor} (kept : Kept n total leader? g)
    {c : Counters} (agree : c.Agree g.world.books) : Balanced n total g c g.world.books := by
  obtain ⟨docs, forwarded, cycles⟩ := agree
  exact {
    documents := by
      have intake : (g.world.books.docs : Int) - g.world.books.forwarded + g.toBring = total := kept.intake
      omega
    commits := fun free => by
      obtain rfl := kept.led.none_of_free free
      have started := cycles kept.honest
      rwa [(kept.idle rfl).1] at started
    forwards := fun free => by
      obtain rfl := kept.led.none_of_free free
      have due : (g.world.books.due n : Int) - g.world.books.forwarded = 0 := (kept.idle rfl).2
      rw [Books.due] at due
      omega
    forwarding := fun i cycle leads => by
      have due : (g.world.books.due n : Int) - g.world.books.forwarded =
          (if 1 < n then weight cycle.written else 0 : Nat) :=
        (kept.busy _ ((kept.led.leads i cycle).1 leads)).arrears_eq
      rw [Books.due] at due
      omega
    reported := fun before k after split => @Books.reported before after k <| by
      rw [← split]
      exact kept.honest }

/-- Whatever the threads on an ingestor do and in whatever order, and whatever errors the store gives, the
counters of an ingestor balance as long as they have room. -/
theorem counters_balance (p : Pipeline) {config : Config} {w : World} (civil : w.plan.Civil) (fresh : w.events = #[])
    {scope : ScopeId} {t : Ingestor.Session}
    (opened : (Ingestor.openAt scope p config : Action Error Unit Ingestor).run () w = (.ok t.1, (), t.2))
    {calls : List Thread} (begins : ∀ call ∈ calls, call.IsCall) {schedule : Floor.Schedule} {g : Floor}
    (ran : (Floor.start t calls).run? schedule = some g)
    (room : (Counters.ofEvents g.world.events.toList).HasRoom) :
    Balanced p.stages.length (calls.countP Thread.brings) g (.ofEvents g.world.events.toList)
      (.ofEvents g.world.events.toList) := by
  obtain ⟨plan, same, length⟩ := enters_openAt (σ := Unit) scope p config () w civil
  rw [opened] at plan same length
  have blank : t.2.books = {} := by
    rw [same, World.books, fresh]
    rfl
  obtain ⟨leader?, kept⟩ := (Kept.start (length t.1 rfl) (Nat.succ_pos _) (plan.symm ▸ civil) blank begins).run ran
  exact kept.balanced (Counters.agree_ofEvents room)

/-- A bucket of the root is rewritten, and the addition of its new contribution to the stage behind is rejected. -/
theorem counters_balance_amid_rejection :
    let p := Pipeline.ofVerbs [.indexedBy "i", .brokenDownBy "a" "A"]
    let config : Config := { commitThreshold := 0, commitWorkers := 1 }
    let plan := Ingestor.rejectOnce 13 1 .set (some ⟨[.text "x"]⟩)
    let d : Document := ⟨[("a", .text "x"), ("i", .int 1)]⟩
    let calls : List Thread := [.ingest d, .ingest ⟨[]⟩, .commit, .ingest d, .commit]
    let schedule : Floor.Schedule :=
      [(0, 0), (1, 0)] ++ List.replicate 8 (2, 0) ++ [(3, 0)] ++ List.replicate 8 (4, 0)
    ∃ (t : Ingestor.Session) (g : Floor),
      (Ingestor.openAt Store.root p config : Action Error Unit Ingestor).run () { plan := plan } = (.ok t.1, (), t.2) ∧
      (Floor.start t calls).run? schedule = some g ∧
      let c := Counters.ofEvents g.world.events.toList
      c.commitsFailed = 2 ∧ c.chainForwards = 3 ∧ Balanced 2 3 g c (.ofEvents g.world.events.toList) := by
  intro p config plan d calls schedule
  have traced : (Ingestor.Session.start? p config plan).map (fun t =>
      ((Floor.start t calls).run? schedule).map fun g => g.world.events.toList) = some (some
        [.queued false, .rejected, .commitStart, .key .inserted, .queued false, .chainForward 1, .commitStart,
          .key .inserted, .commitFinish 1, .commitFinish 1, .queued false, .commitStart, .key .merged, .queued true,
          .queued false, .chainForward 2, .commitStart, .key .unreduced, .commitFailed, .commitFailed]) := by cbv
  obtain ⟨t, opened, same⟩ := Option.map_eq_some_iff.1 traced
  obtain ⟨g, went, events⟩ := Option.map_eq_some_iff.1 same
  have mild : plan.Mild := Ingestor.rejectOnce_mild (.inr rfl)
  have begins : ∀ call ∈ calls, call.IsCall := by
    intro call mem
    simp only [calls, List.mem_cons, List.not_mem_nil, or_false] at mem
    rcases mem with rfl | rfl | rfl | rfl | rfl <;> trivial
  have room : (Counters.ofEvents g.world.events.toList).HasRoom := by
    rw [events, Counters.hasRoom_iff]
    decide
  have ran := Ingestor.run_openAt_of_start? opened
  refine ⟨t, g, ran, went, ?_, ?_, counters_balance p mild.civil rfl ran begins went room⟩
  · rw [events]
    rfl
  · rw [events]
    rfl

end Concurrent

end Rollup
