import Rollup.Ingest.Ingestor
import Rollup.Proofs.Ingest.Links
import Rollup.Proofs.Ingest.Root
import Rollup.Proofs.Pipeline

/-!
# Sessions

A session is an ingestor with the world it lives in, and a run is a list of calls on it, one after
the other.  Between calls the root is grounded and the chain behind it is linked (`Sound`); every
call preserves that, whatever it returns (`Sound.step`).
-/

namespace Rollup.Ingestor

open Ingest

/-- One call on an ingestor. -/
inductive Op
  | ingest (doc : Document)
  | uningest (doc : Document)
  | commit

/-- What a call does. -/
def Op.act : Op → Action Error Ingestor Unit
  | ingest doc => Ingestor.ingest doc
  | uningest doc => Ingestor.uningest doc
  | commit => Ingestor.commit

/-- The queues of the root after a call has queued its document and before it commits. -/
def Op.queue (root : Stage) (q : Queues) : Op → Queues
  | ingest doc => (root.map? doc).elim q (q.push · .add)
  | uningest doc => (root.map? doc).elim q (q.push · .retract)
  | commit => q

/-- An ingestor with the world it lives in. -/
abbrev Session := Ingestor × World

namespace Session

/-- A session after a call, whatever the call returned. -/
def step (t : Session) (op : Op) : Session := (op.act.run t.1 t.2).2

/-- A session after calls. -/
def after (t : Session) (ops : List Op) : Session := ops.foldl step t

theorem after_append (t : Session) (ops : List Op) (op : Op) : t.after (ops ++ [op]) = (t.after ops).step op :=
  List.foldl_append

theorem after_after (t : Session) (ops ops' : List Op) : (t.after ops).after ops' = t.after (ops ++ ops') :=
  List.foldl_append.symm

/-- What the root accounts for, in documents. -/
def load (t : Session) : Nat := Ingest.load (t.2.store.buckets t.1.rootScope) (t.1.queues.headD {})

/-- No total that a call adds up can reach `2 ^ 53`.  A call adds one document at most, which counts
and may open a bucket, and a commit adds up at most two values for everything that the root accounts
for. -/
def Small (t : Session) : Prop := 2 * (t.load + 2) < 2 ^ 53

end Session

/-! ## Between calls -/

/-- What holds of a store between calls: the root is grounded and the chain behind it linked. -/
structure Standing (verbs : List Verb) (root : Site) (behindSites : List Site) (q : Queues) (s : Store) :
    Prop where
  grounded : Grounded verbs root.stage (s.buckets root.scope) q
  linked : Linked verbs s root.stage (s.buckets root.scope) behindSites
  placed : Placed (root :: behindSites) s
  sorted : ∀ id, (s.buckets id).Sorted

namespace Standing

variable {verbs : List Verb} {root : Site} {behindSites : List Site} {q q' : Queues} {s s' : Store}
  {first second : List Group} {retracted added : List Revision} {qs' : List Queues}

theorem here (standing : Standing verbs root behindSites q s) : root.scope < s.scopes.length :=
  standing.placed.open_ root List.mem_cons_self

/-- The buckets of the root after a cycle. -/
theorem buckets_of_cycled (standing : Standing verbs root behindSites q s)
    (cycled : Cycled root behindSites q (idle behindSites) s first second retracted added q' qs' s') :
    s'.buckets root.scope =
      afterPhase root.stage .add (afterPhase root.stage .retract (s.buckets root.scope) first) second := by
  rw [cycled.settled.buckets_of_not_mem standing.placed.head_not_mem, (buckets_revised standing.placed).1, cycled.add,
    cycled.retract]
  rfl

/-- A cycle leaves the chain standing, whichever keys of the root fail. -/
theorem cycled (standing : Standing verbs root behindSites q s)
    (small : 2 * Ingest.load (s.buckets root.scope) q < 2 ^ 53)
    (cycled : Cycled root behindSites q (idle behindSites) s first second retracted added q' qs' s') :
    Standing verbs root behindSites q' s' ∧ qs' = idle behindSites ∧
      Ingest.load (s'.buckets root.scope) q' ≤ Ingest.load (s.buckets root.scope) q := by
  obtain ⟨course, grounded, load⟩ := standing.grounded.course cycled.first_part cycled.second_part (by omega)
  have lighter := load q' cycled.retractions_drained cycled.additions_drained
  rw [← standing.buckets_of_cycled cycled] at lighter
  have buckets := standing.buckets_of_cycled cycled
  rw [show afterPhase root.stage .retract (s.buckets root.scope) first =
    applyAll retracted (s.buckets root.scope) from by rw [cycled.retract]; rfl] at course grounded buckets
  rw [← cycled.retract, ← cycled.add] at course
  obtain ⟨linked, idle⟩ := standing.linked.settled small standing.placed course cycled.settled
  rw [← buckets] at grounded
  refine ⟨⟨⟨grounded.counting, grounded.holds, grounded.untallied, ?_⟩, linked,
    standing.placed.of_length cycled.sameTree.length_scopes, ?_⟩, idle, lighter⟩
  · intro which e mem
    exact standing.grounded.queued which e
      (mem_entries_of_left cycled.retractions_drained cycled.additions_drained mem)
  · exact cycled.settled.sorted (standing.placed.revised retracted added)
      (sorted_revised standing.placed standing.sorted)

end Standing

theorem mem_entries_push {q : Queues} {entry e : Key × Document} {phase which : Phase}
    (mem : e ∈ (q.push entry phase).entries which) : e ∈ q.entries which ∨ e = entry := by
  cases phase <;> cases which <;> simp_all [Queues.push, Queues.entries]

theorem load_elim_push (b : Ingest.Buckets) (q : Queues) (phase : Phase) (made : Option (Key × Document)) :
    Ingest.load b (made.elim q (q.push · phase)) ≤ Ingest.load b q + 2 := by
  cases made <;> cases phase <;> simp [Queues.push, Ingest.load] <;> omega

/-- Nothing that a store has in the scopes of sites was changed. -/
structure Beside (sites : List Site) (s s' : Store) : Prop where
  length : s.scopes.length ≤ s'.scopes.length
  same : ∀ site ∈ sites, s'.buckets site.scope = s.buckets site.scope
  sorted : (∀ id, (s.buckets id).Sorted) → ∀ id, (s'.buckets id).Sorted

/-- A commit of an ingestor commits its sites. -/
theorem run_commit_eq (i : Ingestor) (w : World) :
    Ingestor.commit.run i w =
      let ended := (Ingest.commit i.config.commitWorkers i.sites).run i.queues w
      (ended.1, { i with queues := ended.2.1 }, ended.2.2) := by
  rw [Ingestor.commit, Action.run_bind, Action.run_getLocal]
  simp only [onQueues, Action.run_zoom]

/-- Whatever the root maps can be queued. -/
theorem queued_of_root_map? {verbs : List Verb} (counting : Counting verbs) {doc : Document}
    {entry : Key × Document} (made : (Stage.root verbs).map? doc = some entry) :
    Queued verbs (Stage.root verbs) entry := by
  refine ⟨(readable_root_map? counting made).mono ?_, fresh_root_map? counting made⟩
  exact fun name value tells plain => tells plain.unchained

/-- What holds of a session between calls, over the pipeline of some verbs. -/
structure Sound (verbs : List Verb) (root : Site) (behindSites : List Site) (q : Queues) (t : Session) :
    Prop where
  counting : Counting verbs
  stage : root.stage = Stage.root verbs
  sites : t.1.sites = root :: behindSites
  queues : t.1.queues = q :: idle behindSites
  standing : Standing verbs root behindSites q t.2.store
  ready : Ready behindSites t.2

namespace Sound

variable {verbs : List Verb} {root : Site} {behindSites : List Site} {q : Queues} {t : Session}

theorem load_eq (sound : Sound verbs root behindSites q t) :
    t.load = Ingest.load (t.2.store.buckets root.scope) q := by
  rw [Session.load, rootScope, sound.sites, sound.queues]
  rfl

theorem rootScope_eq (sound : Sound verbs root behindSites q t) : t.1.rootScope = root.scope := by
  rw [rootScope, sound.sites]
  rfl

/-- What happens beside the chain does not matter. -/
theorem beside {w' : World} (sound : Sound verbs root behindSites q t) (plan : w'.plan = t.2.plan)
    (beside : Beside (root :: behindSites) t.2.store w'.store) : Sound verbs root behindSites q (t.1, w') := by
  refine ⟨sound.counting, sound.stage, sound.sites, sound.queues, ?_, sound.ready.of_le plan beside.length⟩
  have same : w'.store.buckets root.scope = t.2.store.buckets root.scope := beside.same root List.mem_cons_self
  constructor
  case grounded =>
    rw [same]
    exact sound.standing.grounded
  case linked =>
    rw [same]
    apply sound.standing.linked.congr
    intro site mem
    exact beside.same site (List.mem_cons_of_mem _ mem)
  case placed => exact sound.standing.placed.of_length_le beside.length
  case sorted => exact beside.sorted sound.standing.sorted

/-! ## Commits -/

/-- A commit takes a sound session to a sound one. -/
theorem commit (sound : Sound verbs root behindSites q t) (small : 2 * t.load < 2 ^ 53) :
    ∃ r first second retracted added q', ∃ t' : Session, (Ingestor.commit.run t.1 t.2) = (r, t') ∧
      Sound verbs root behindSites q' t' ∧ t'.load ≤ t.load ∧ t'.2.plan = t.2.plan ∧
      Cycled root behindSites q (idle behindSites) t.2.store first second retracted added q'
        (idle behindSites) t'.2.store ∧
      (r = .ok () ∨ ∃ e, r = .error (.error e)) ∧
      (t.2.plan.Spares root.scope → r = .ok () ∧ q' = {} ∧
        first.Perm (groupByKey q.retractions) ∧ second.Perm (groupByKey q.additions)) := by
  obtain ⟨i, w⟩ := t
  rw [sound.load_eq] at small ⊢
  have length : (idle behindSites).length = behindSites.length := List.length_map _
  obtain ⟨r, first, second, retracted, added, q', qs', w', ran, plan, cycled, ended, spared⟩ :=
    @run_commit_cons i.config.commitWorkers _ _ q _ length _ sound.ready sound.standing.here
  obtain ⟨standing, rfl, load⟩ := sound.standing.cycled small cycled
  have sound' : Sound verbs root behindSites q' ({ i with queues := q' :: idle behindSites }, w') :=
    ⟨sound.counting, sound.stage, sound.sites, rfl, standing,
      sound.ready.of_eq plan cycled.sameTree.length_scopes⟩
  refine ⟨r, first, second, retracted, added, q', ({ i with queues := q' :: idle behindSites }, w'), ?_,
    sound', sound'.load_eq ▸ load, plan, cycled, ended, spared⟩
  have sites : i.sites = root :: behindSites := sound.sites
  have queues : i.queues = q :: idle behindSites := sound.queues
  rw [run_commit_eq, sites, queues, ran]

theorem commit_ne_crash (sound : Sound verbs root behindSites q t) (small : 2 * t.load < 2 ^ 53) :
    (Ingestor.commit.run t.1 t.2).1 ≠ .error .crash := by
  obtain ⟨r, first, second, retracted, added, q', t', ran, -, -, -, -, ended, -⟩ := sound.commit small
  rw [ran]
  rcases ended with rfl | ⟨e, rfl⟩ <;> nofun

theorem queued_eq (sound : Sound verbs root behindSites q t) : t.1.queued = q.size := by
  rw [queued, sound.queues]
  rfl

theorem eq_empty_of_drained (sound : Sound verbs root behindSites q t) (drained : t.1.queued = 0) : q = {} := by
  rw [sound.queued_eq] at drained
  obtain ⟨additions, retractions⟩ := q
  obtain ⟨added, retracted⟩ := Nat.eq_zero_of_add_eq_zero drained
  obtain rfl : additions = [] := List.eq_nil_of_length_eq_zero added
  obtain rfl : retractions = [] := List.eq_nil_of_length_eq_zero retracted
  rfl

/-- A commit that no access of the root fails works off everything. -/
theorem queued_commit (sound : Sound verbs root behindSites q t) (small : 2 * t.load < 2 ^ 53)
    (spares : t.2.plan.Spares root.scope) : (Ingestor.commit.run t.1 t.2).2.1.queued = 0 := by
  obtain ⟨r, first, second, retracted, added, q', t', ran, sound', -, -, -, -, spared⟩ := sound.commit small
  rw [ran, sound'.queued_eq, (spared spares).2.1]
  rfl

/-! ## Pushes -/

theorem standing_push (sound : Sound verbs root behindSites q t) (phase : Phase) (doc : Document) :
    Standing verbs root behindSites ((root.stage.map? doc).elim q (q.push · phase)) t.2.store := by
  have grounded := sound.standing.grounded
  refine ⟨⟨grounded.counting, grounded.holds, grounded.untallied, ?_⟩, sound.standing.linked,
    sound.standing.placed, sound.standing.sorted⟩
  intro which e mem
  cases made : root.stage.map? doc with
  | none =>
    rw [made] at mem
    exact grounded.queued which e mem
  | some entry =>
    rw [made, Option.elim_some] at mem
    rcases mem_entries_push mem with kept | rfl
    · exact grounded.queued which e kept
    · rw [sound.stage] at made ⊢
      exact queued_of_root_map? sound.counting made

theorem standing_queue (sound : Sound verbs root behindSites q t) (op : Op) :
    Standing verbs root behindSites (op.queue root.stage q) t.2.store := by
  cases op with
  | ingest doc => exact sound.standing_push .add doc
  | uningest doc => exact sound.standing_push .retract doc
  | commit => exact sound.standing

theorem load_queue_le (sound : Sound verbs root behindSites q t) (op : Op) :
    Ingest.load (t.2.store.buckets root.scope) (op.queue root.stage q) ≤ t.load + 2 := by
  rw [sound.load_eq]
  cases op with
  | ingest doc => exact load_elim_push _ q .add _
  | uningest doc => exact load_elim_push _ q .retract _
  | commit => exact Nat.le_add_right _ _

end Sound

theorem run_enqueueRoot {ε : Type} {i : Ingestor} {root : Site} {behindSites : List Site} {q : Queues}
    {qs : List Queues} (sites : i.sites = root :: behindSites) (queues : i.queues = q :: qs) (phase : Phase)
    (doc : Document) (w : World) :
    ∃ i' w', i' = { i with queues := (root.stage.map? doc).elim q (q.push · phase) :: qs } ∧
      w'.plan = w.plan ∧ w'.store = w.store ∧
      (Ingestor.enqueue phase doc : Action ε Ingestor (Option Nat)).run i w =
        (.ok ((root.stage.map? doc).map fun _ => i'.queued), i', w') := by
  obtain ⟨w', plan, store, ran⟩ := run_enqueue (ε := ε) root.stage phase doc q w
  refine ⟨_, w', rfl, plan, store, ?_⟩
  rw [Ingestor.enqueue, Action.run_bind, Action.run_getLocal]
  simp only [rootStage?, sites, List.head?_cons, Option.map_some, Action.run_bind, onQueues, here,
    Action.run_zoom, queues, List.headD_cons, ran, Action.run_getLocal, List.tail_cons]
  rfl

section Push

variable {ε : Type} {i : Ingestor} {w : World} {phase : Phase} {doc : Document} {r : Option Nat} {t : Session}
  (queued : (Ingestor.enqueue phase doc : Action ε Ingestor (Option Nat)).run i w = (.ok r, t))

include queued

/-- A call that queues a document commits after it where that is due, and does nothing else. -/
theorem run_push_eq (sane : (Ingestor.commit.run t.1 t.2).1 ≠ .error .crash) :
    ((Ingestor.push phase doc : Action ε Ingestor Unit).run i w).2 =
      if r.any t.1.isDue then (Ingestor.commit.run t.1 t.2).2 else t := by
  rw [Ingestor.push, Action.run_bind, queued]
  cases r with
  | none => rfl
  | some n =>
    simp only [Action.run_bind, Action.run_getLocal, Option.any_some]
    split
    · rw [commitInBackground, Action.run_bind, Action.run_attempt]
      rcases ran : Ingestor.commit.run t.1 t.2 with ⟨(e | _) | _, t'⟩
      · rfl
      · rw [ran] at sane
        exact absurd rfl sane
      · rfl
    · rfl

/-- A call that queues a document may commit after it. -/
theorem run_push (sane : (Ingestor.commit.run t.1 t.2).1 ≠ .error .crash) :
    ((Ingestor.push phase doc : Action ε Ingestor Unit).run i w).2 = t ∨
      ((Ingestor.push phase doc : Action ε Ingestor Unit).run i w).2 = (Ingestor.commit.run t.1 t.2).2 := by
  rw [run_push_eq queued sane]
  split
  · exact .inr rfl
  · exact .inl rfl

/-- Where only the caller commits, a call that queues a document does nothing else. -/
theorem run_push_of_manual (manual : t.1.config.autoCommitDisabled = true) :
    (Ingestor.push phase doc : Action ε Ingestor Unit).run i w = (.ok (), t) := by
  rw [Ingestor.push, Action.run_bind, queued]
  cases r with
  | none => rfl
  | some n =>
    have idle : t.1.isDue n = false := by simp [isDue, manual]
    simp only [Action.run_bind, Action.run_getLocal, idle, Bool.false_eq_true, if_false]
    rfl

end Push

namespace Sound

variable {verbs : List Verb} {root : Site} {behindSites : List Site} {q : Queues} {t : Session}

/-- Queueing a document keeps a session sound. -/
theorem enqueue {ε : Type} (sound : Sound verbs root behindSites q t) (phase : Phase) (doc : Document) :
    ∃ t' : Session, (Ingestor.enqueue phase doc : Action ε Ingestor (Option Nat)).run t.1 t.2 =
        (.ok ((root.stage.map? doc).map fun _ => t'.1.queued), t') ∧
      Sound verbs root behindSites ((root.stage.map? doc).elim q (q.push · phase)) t' ∧
      t'.2.plan = t.2.plan ∧ t'.2.store = t.2.store ∧ t'.1.config = t.1.config := by
  obtain ⟨i', w', rfl, plan, store, ran⟩ := run_enqueueRoot (ε := ε) sound.sites sound.queues phase doc t.2
  refine ⟨(_, w'), ran, ⟨sound.counting, sound.stage, sound.sites, rfl, ?_,
    sound.ready.of_eq plan (by rw [store])⟩, plan, store, rfl⟩
  rw [store]
  exact sound.standing_push phase doc

/-- Where only the caller commits, a call that queues a document does nothing else. -/
theorem push_of_manual {ε : Type} (sound : Sound verbs root behindSites q t)
    (manual : t.1.config.autoCommitDisabled = true) (phase : Phase) (doc : Document) :
    ∃ t' : Session, (Ingestor.push phase doc : Action ε Ingestor Unit).run t.1 t.2 = (.ok (), t') ∧
      Sound verbs root behindSites ((root.stage.map? doc).elim q (q.push · phase)) t' ∧
      t'.2.plan = t.2.plan ∧ t'.2.store = t.2.store ∧ t'.1.config = t.1.config := by
  obtain ⟨t', ran, sound', plan, store, config⟩ := sound.enqueue (ε := ε) phase doc
  exact ⟨t', run_push_of_manual ran (config ▸ manual), sound', plan, store, config⟩

/-- A call that queues a document may commit after it, and does nothing else. -/
theorem push (sound : Sound verbs root behindSites q t) (small : t.Small) (phase : Phase) (doc : Document) :
    ∃ t₁ : Session, Sound verbs root behindSites ((root.stage.map? doc).elim q (q.push · phase)) t₁ ∧
      t₁.2.plan = t.2.plan ∧ t₁.2.store = t.2.store ∧ t₁.load ≤ t.load + 2 ∧
      (((Ingestor.push phase doc : Action Error Ingestor Unit).run t.1 t.2).2 = t₁ ∨
        ((Ingestor.push phase doc : Action Error Ingestor Unit).run t.1 t.2).2 =
          (Ingestor.commit.run t₁.1 t₁.2).2) := by
  obtain ⟨t₁, ran, sound₁, plan, store, -⟩ := sound.enqueue (ε := Error) phase doc
  have load : t₁.load ≤ t.load + 2 := by
    rw [sound₁.load_eq, sound.load_eq, store]
    exact load_elim_push _ q phase _
  refine ⟨t₁, sound₁, plan, store, load, run_push ran (sound₁.commit_ne_crash ?_)⟩
  rw [Session.Small] at small
  omega

/-! ## Runs -/

/-- What the root goes through in a call: its document waits in the queues, or a cycle has run. -/
inductive Turn (root : Site) (behindSites : List Site) (q : Queues) (plan : FaultPlan) (s : Store) :
    Queues → Store → Prop
  | waits : Turn root behindSites q plan s q s
  | cycles {q' : Queues} {s' : Store} {first second : List Group} {retracted added : List Revision}
      (cycled : Cycled root behindSites q (idle behindSites) s first second retracted added q'
        (idle behindSites) s')
      (spared : plan.Spares root.scope → q' = {} ∧ first.Perm (groupByKey q.retractions) ∧
        second.Perm (groupByKey q.additions)) : Turn root behindSites q plan s q' s'

/-- Every call takes a sound session to a sound one. -/
theorem step (sound : Sound verbs root behindSites q t) (small : t.Small) (op : Op) :
    ∃ q', Sound verbs root behindSites q' (t.step op) ∧ (t.step op).2.plan = t.2.plan ∧
      (t.step op).load ≤ t.load + 2 ∧
      Turn root behindSites (op.queue root.stage q) t.2.plan t.2.store q' (t.step op).2.store ∧
      (op = .commit → t.2.plan.Spares root.scope → q' = {}) := by
  rw [Session.Small] at small
  have committed : ∀ {q₁ : Queues} {t₁ : Session}, Sound verbs root behindSites q₁ t₁ → t₁.load ≤ t.load + 2 →
      ∃ q' t', (Ingestor.commit.run t₁.1 t₁.2).2 = t' ∧ Sound verbs root behindSites q' t' ∧
        t'.2.plan = t₁.2.plan ∧ Session.load t' ≤ t₁.load ∧
        Turn root behindSites q₁ t₁.2.plan t₁.2.store q' t'.2.store ∧ (t₁.2.plan.Spares root.scope → q' = {}) := by
    intro q₁ t₁ sound₁ load
    obtain ⟨r, first, second, retracted, added, q', t', ran, sound', lighter, plan, cycled, -, spared⟩ :=
      sound₁.commit (by omega)
    exact ⟨q', t', by rw [ran], sound', plan, lighter, .cycles cycled fun spares => (spared spares).2,
      fun spares => (spared spares).2.1⟩
  -- Queueing a document may make the session commit at once.
  have pushed : ∀ phase doc, ∃ q' t', ((Ingestor.push phase doc : Action Error Ingestor Unit).run t.1 t.2).2 = t' ∧
      Sound verbs root behindSites q' t' ∧ t'.2.plan = t.2.plan ∧ Session.load t' ≤ t.load + 2 ∧
      Turn root behindSites ((root.stage.map? doc).elim q (q.push · phase)) t.2.plan t.2.store q' t'.2.store := by
    intro phase doc
    obtain ⟨t₁, sound₁, plan, store, load, same | same⟩ := sound.push (by rw [Session.Small]; omega) phase doc
    · exact ⟨_, t₁, same, sound₁, plan, load, by rw [store]; exact .waits⟩
    · obtain ⟨q', t', ran, sound', plan', lighter, turn, -⟩ := committed sound₁ load
      rw [plan, store] at turn
      exact ⟨q', t', same.trans ran, sound', plan'.trans plan, by omega, turn⟩
  cases op with
  | ingest doc =>
    obtain ⟨q', t', ran, sound', plan, load, turn⟩ := pushed .add doc
    rw [show t.step (.ingest doc) = t' from ran]
    exact ⟨q', sound', plan, load, turn, fun same => by cases same⟩
  | uningest doc =>
    obtain ⟨q', t', ran, sound', plan, load, turn⟩ := pushed .retract doc
    rw [show t.step (.uningest doc) = t' from ran]
    exact ⟨q', sound', plan, load, turn, fun same => by cases same⟩
  | commit =>
    obtain ⟨q', t', ran, sound', plan, load, turn, none⟩ := committed sound (by omega)
    rw [show t.step .commit = t' from ran]
    exact ⟨q', sound', plan, by omega, turn, fun _ => none⟩

/-- A run of calls takes a sound session to a sound one. -/
theorem after {ops : List Op} (sound : Sound verbs root behindSites q t)
    (small : ∀ done, done <+: ops → (t.after done).Small) :
    ∃ q', Sound verbs root behindSites q' (t.after ops) ∧ (t.after ops).2.plan = t.2.plan := by
  induction ops generalizing q t with
  | nil => exact ⟨q, sound, rfl⟩
  | cons op rest ih =>
    obtain ⟨q₁, sound₁, plan, -⟩ := sound.step (small [] (List.nil_prefix)) op
    obtain ⟨q', sound', plan'⟩ := ih sound₁ fun done before =>
      small (op :: done) ((List.prefix_cons_inj op).2 before)
    exact ⟨q', sound', plan'.trans plan⟩

theorem queued_after_commit {ops : List Op} (sound : Sound verbs root behindSites q t)
    (spares : t.2.plan.Spares root.scope) (small : ∀ done, done <+: ops ++ [.commit] → (t.after done).Small) :
    (t.after (ops ++ [.commit])).1.queued = 0 := by
  obtain ⟨q', sound', plan⟩ := sound.after fun done before => small done (before.trans (List.prefix_append _ _))
  have last := small ops (List.prefix_append _ _)
  rw [Session.Small] at last
  rw [Session.after_append]
  exact sound'.queued_commit (by omega) (plan ▸ spares)

/-- Short runs are small: a call adds two at most to what the root accounts for. -/
theorem small_of_length {ops : List Op} (sound : Sound verbs root behindSites q t)
    (short : 2 * (t.load + 2 * ops.length + 2) < 2 ^ 53) :
    ∀ done, done <+: ops → (t.after done).Small := by
  induction ops generalizing q t with
  | nil =>
    intro done before
    rw [List.prefix_nil.1 before]
    exact short
  | cons op rest ih =>
    rw [List.length_cons] at short
    have first : t.Small := by
      rw [Session.Small]
      omega
    intro done before
    cases done with
    | nil => exact first
    | cons op' done =>
      obtain ⟨rfl, later⟩ := List.cons_prefix_cons.1 before
      obtain ⟨q₁, sound₁, -, load, -⟩ := sound.step first op'
      exact ih sound₁ (by omega) done later

end Sound

end Rollup.Ingestor
