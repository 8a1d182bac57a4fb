import Rollup.Proofs.Action
import Rollup.Proofs.Boundaries
import Rollup.Proofs.Ingest.Opening

/-!
# Where buckets come from

Whatever a store refuses and however calls end, all that waits for a stage was emitted for it, and all that a
stage has stored is made of what was emitted (`Traced`).  Every computation of a commit keeps that, and what it
passes on is traced too (`Action.Yields`).  So what holds of all that a stage can store holds of its buckets in
every run (`boundaries_kept`).
-/

namespace Rollup

open Ingest

namespace Ingest

open Rollup.Action

/-! ## Traced states -/

/-- What the stages of a chain can emit: what the first one makes of an event, and what every other one makes of a
bucket that the stage before it can store. -/
structure Lineage (emits : Nat → Key → Document → Prop) (sites : List Site) : Prop where
  apart : (sites.map Site.scope).Nodup
  enters : ∀ root event key d, sites[0]? = some root → root.stage.map? event = some (key, d) → emits 0 key d
  forwards : ∀ n site next key d, sites[n]? = some site → sites[n + 1]? = some next →
    site.stage.Forwards next.stage (emits n) key d → emits (n + 1) key d

/-- All that waits for the `n`-th stage was emitted for it. -/
def Awaited (emits : Nat → Key → Document → Prop) (n : Nat) (q : Queues) : Prop :=
  ∀ which, ∀ e ∈ q.entries which, emits n e.1 e.2

/-- All that waits for the stages from the `n`-th on was emitted for them. -/
def Fed (emits : Nat → Key → Document → Prop) : Nat → List Queues → Prop
  | _, [] => True
  | n, q :: rest => Awaited emits n q ∧ Fed emits (n + 1) rest

/-- All that the stages of a chain have stored is made of what was emitted for them. -/
def Sourced (emits : Nat → Key → Document → Prop) (sites : List Site) (s : Store) : Prop :=
  ∀ n (site : Site) key d, sites[n]? = some site → (s.buckets site.scope).get? key = some d →
    site.stage.Stores (emits n) key d

/-- The queues of the `n`-th stage and what is stored are traced. -/
abbrev TracedAt (emits : Nat → Key → Document → Prop) (sites : List Site) (n : Nat) (q : Queues) (s : Store) : Prop :=
  Awaited emits n q ∧ Sourced emits sites s

/-- The queues of the stages from the `n`-th on and what is stored are traced. -/
abbrev TracedFrom (emits : Nat → Key → Document → Prop) (sites : List Site) (n : Nat) (qs : List Queues)
    (s : Store) : Prop := Fed emits n qs ∧ Sourced emits sites s

/-- A bucket was and is made of what was emitted. -/
structure Descends (emits : Nat → Key → Document → Prop) (n : Nat) (stage : Stage) (r : Revision) : Prop where
  old : ∀ d, r.old = some d → stage.Stores (emits n) r.key d
  new : stage.Stores (emits n) r.key r.new

section Traced

variable {ε σ : Type} {emits : Nat → Key → Document → Prop} {sites : List Site} {n : Nat} {site : Site} {q : Queues}
  {qs : List Queues} {s : Store}

theorem awaited_empty : Awaited emits n {} := by
  intro which e mem
  cases which <;> cases mem

theorem Fed.head (fed : Fed emits n qs) : Awaited emits n (qs.headD {}) := by
  cases qs with
  | nil => exact awaited_empty
  | cons q rest => exact fed.1

theorem Fed.tail (fed : Fed emits n qs) : Fed emits (n + 1) qs.tail := by
  cases qs with
  | nil => trivial
  | cons q rest => exact fed.2

theorem fed_idle (n : Nat) (sites : List Site) : Fed emits n (idle sites) := by
  induction sites generalizing n with
  | nil => trivial
  | cons site rest ih => exact ⟨awaited_empty, ih (n + 1)⟩

theorem Awaited.push {entry : Key × Document} (awaited : Awaited emits n q) (emitted : emits n entry.1 entry.2)
    (which : Phase) : Awaited emits n (q.push entry which) := by
  intro other e mem
  rcases Ingestor.mem_entries_push mem with kept | rfl
  · exact awaited other e kept
  · exact emitted

theorem Awaited.drop (awaited : Awaited emits n q) (which : Phase) : Awaited emits n (q.drop which) := by
  intro other e mem
  cases which <;> cases other
  · cases mem
  · exact awaited .add e mem
  · exact awaited .retract e mem
  · cases mem

theorem Sourced.set (sourced : Sourced emits sites s) (apart : (sites.map Site.scope).Nodup)
    (at_ : sites[n]? = some site) {key : Key} {d : Document} (stores : site.stage.Stores (emits n) key d) :
    Sourced emits sites (s.set site.scope key (some d)) := by
  intro m other key' d' at_other found
  by_cases same : other.scope = site.scope
  -- No two stages share a scope, so the stage that reads the new bucket is the one that has stored it.
  · obtain ⟨inside, -⟩ := List.getElem?_eq_some_iff.1 at_other
    obtain rfl : m = n := by
      refine (List.getElem?_inj (by rwa [List.length_map]) apart).1 ?_
      rw [List.getElem?_map, List.getElem?_map, at_other, at_, Option.map_some, Option.map_some, same]
    obtain rfl : other = site := Option.some.inj (at_other.symm.trans at_)
    by_cases open_ : other.scope < s.scopes.length
    · rw [s.buckets_set_self open_, SortedMap.get?_insert] at found
      split at found
      · next own =>
        cases found
        exact own ▸ stores
      · exact sourced m other key' d' at_other found
    · rw [Store.buckets, Store.scope_of_length_le _ (by rw [s.length_set]; exact Nat.le_of_not_lt open_)] at found
      cases found
  · rw [s.buckets_set_of_ne same] at found
    exact sourced m other key' d' at_other found

/-- What a phase makes of a bucket descends from what was emitted. -/
theorem descends_of_revise? {stage : Stage} {which : Phase} {group : Group} {old? : Option Document} {r : Revision}
    (emitted : ∀ d ∈ group.2, emits n group.1 d) (stored : ∀ d, old? = some d → stage.Stores (emits n) group.1 d)
    (revised : revise? stage which group old? = some r) : Descends emits n stage r := by
  obtain ⟨key, docs⟩ := group
  cases which with
  | retract =>
    cases old? with
    | none => cases revised
    | some d =>
      cases revised
      exact ⟨stored, .taken (stored d rfl) emitted⟩
  | add =>
    cases old? with
    | none =>
      obtain ⟨candidate, folded, rfl⟩ := Option.map_eq_some_iff.1 revised
      exact ⟨stored, .folded emitted folded⟩
    | some d =>
      obtain ⟨candidate, folded, revised⟩ := Option.bind_eq_some_iff.1 revised
      obtain ⟨merged, folded', rfl⟩ := Option.map_eq_some_iff.1 revised
      exact ⟨stored, .merged (stored d rfl) (.folded emitted folded) folded'⟩

/-- What revised buckets queue at the next stage is handed on. -/
theorem forwards_of_forwarded {stage next : Stage} {emits : Key → Document → Prop} {rs : List Revision}
    {pick : Revision → Option Document} (picked : ∀ r ∈ rs, ∀ d, pick r = some d → stage.Stores emits r.key d)
    {e : Key × Document} (mem : e ∈ forwarded next pick rs) : stage.Forwards next emits e.1 e.2 := by
  obtain ⟨r, member, made⟩ := List.mem_filterMap.1 mem
  obtain ⟨d, found, mapped⟩ := Option.bind_eq_some_iff.1 made
  exact ⟨r.key, d, picked r member d found, mapped⟩

/-! ## One stage -/

section Site

variable {F : σ → Prop} (lineage : Lineage emits sites) (at_ : sites[n]? = some site)

include lineage at_

theorem yields_processGroup (which : Phase) {group : Group} (emitted : ∀ d ∈ group.2, emits n group.1 d) :
    (processGroup site which group : Action Error σ _).Yields (fun l s => F l ∧ Sourced emits sites s)
      fun r? => ∀ r ∈ r?, Descends emits n site.stage r := by
  rintro l w ⟨holds, sourced⟩
  obtain ⟨w', -, ⟨f, -, store, ran⟩ | ⟨r?, revised, -, store, ran⟩⟩ := run_processGroup site which group l w <;>
    rw [ran]
  · exact ⟨⟨holds, store ▸ sourced⟩, fun _ same => by cases same⟩
  have descends : ∀ r ∈ r?, Descends emits n site.stage r := by
    rintro r rfl
    exact descends_of_revise? emitted (fun d found => sourced n site group.1 d at_ found) revised.symm
  refine ⟨⟨holds, ?_⟩, fun _ same => by cases same; exact descends⟩
  rw [store]
  cases r? with
  | none => exact sourced
  | some r => exact sourced.set lineage.apart at_ (descends r rfl).new

theorem yields_processAll (which : Phase) {groups : List Group}
    (emitted : ∀ group ∈ groups, ∀ d ∈ group.2, emits n group.1 d) {p : Progress}
    (before : ∀ r ∈ p.revisions, Descends emits n site.stage r) :
    (processAll site which groups p : Action Error σ _).Yields (fun l s => F l ∧ Sourced emits sites s)
      fun p' => ∀ r ∈ p'.revisions, Descends emits n site.stage r := by
  induction groups generalizing p with
  | nil => exact yields_pure before
  | cons group rest ih =>
    have later := fun {p} => @ih (fun other mem => emitted other (List.mem_cons_of_mem _ mem)) p
    refine (yields_processGroup lineage at_ which (emitted group List.mem_cons_self)).attempt.bind fun ended own => ?_
    rcases ended with (e | _) | r?
    · exact later before
    · exact yields_fail _
    · refine later fun r mem => ?_
      rcases List.mem_append.1 mem with mem | mem
      · exact before r mem
      · exact own r? rfl r (Option.mem_toList.1 mem)

theorem yields_processWorkers (which : Phase) {lists : List (List Group)}
    (emitted : ∀ groups ∈ lists, ∀ group ∈ groups, ∀ d ∈ group.2, emits n group.1 d) {p : Progress}
    (before : ∀ r ∈ p.revisions, Descends emits n site.stage r) :
    (processWorkers site which lists p : Action Error σ _).Yields (fun l s => F l ∧ Sourced emits sites s)
      fun p' => ∀ r ∈ p'.revisions, Descends emits n site.stage r := by
  induction lists generalizing p with
  | nil => exact yields_pure before
  | cons groups rest ih =>
    have first := @yields_processAll σ emits sites n site F lineage at_ which groups
      (emitted groups List.mem_cons_self) {} (List.forall_mem_nil _)
    refine first.attempt.bind fun ended own => ih (fun other mem => emitted other (List.mem_cons_of_mem _ mem)) ?_
    intro r mem
    rcases List.mem_append.1 mem with mem | mem
    · exact before r mem
    -- What a worker that fails has revised is forgotten.
    rcases ended with (e | _) | p'
    · cases mem
    · cases mem
    · exact own p' rfl r mem

theorem yields_process (workers : Nat) (which : Phase) {groups : List Group}
    (emitted : ∀ group ∈ groups, ∀ d ∈ group.2, emits n group.1 d) :
    (process workers site which groups : Action Error σ _).Yields (fun l s => F l ∧ Sourced emits sites s)
      fun p => ∀ r ∈ p.revisions, Descends emits n site.stage r := by
  rw [process]
  split
  · refine yields_processWorkers lineage at_ which (fun share mem group member => emitted group ?_)
      (List.forall_mem_nil _)
    exact (flatten_partitions_perm workers groups).subset (List.mem_flatten.2 ⟨share, mem, member⟩)
  · exact yields_processAll lineage at_ which emitted (List.forall_mem_nil _)

end Site

/-! ## The chain -/

theorem yields_here {α : Type} {act : Action ε Queues α} {Q : α → Prop}
    (yields : act.Yields (TracedAt emits sites n) Q) :
    (here act).Yields (TracedFrom emits sites n) Q := by
  rintro qs w ⟨fed, sourced⟩
  obtain ⟨⟨awaited, sourced'⟩, given⟩ := yields (qs.headD {}) w ⟨fed.head, sourced⟩
  exact ⟨⟨⟨awaited, fed.tail⟩, sourced'⟩, given⟩

theorem yields_behind {α : Type} {act : Action ε (List Queues) α} {Q : α → Prop}
    (yields : act.Yields (TracedFrom emits sites (n + 1)) Q) :
    (behind act).Yields (TracedFrom emits sites n) Q := by
  rintro qs w ⟨fed, sourced⟩
  obtain ⟨⟨later, sourced'⟩, given⟩ := yields qs.tail w ⟨fed.tail, sourced⟩
  exact ⟨⟨⟨fed.head, later⟩, sourced'⟩, given⟩

theorem yields_drain (which : Phase) :
    (drain which : Action ε Queues _).Yields (TracedAt emits sites n)
      fun entries => ∀ e ∈ entries, emits n e.1 e.2 := by
  rintro q w ⟨awaited, sourced⟩
  exact ⟨⟨awaited.drop which, sourced⟩, fun _ same => by cases same; exact awaited which⟩

theorem keeps_enqueue {stage : Stage} (which : Phase) {doc : Document}
    (emitted : ∀ key d, stage.map? doc = some (key, d) → emits n key d) :
    (Ingest.enqueue stage which doc : Action ε Queues Unit).Keeps (TracedAt emits sites n) := by
  rintro q w ⟨awaited, sourced⟩
  obtain ⟨w', -, store, ran⟩ := run_enqueue (ε := ε) stage which doc q w
  rw [ran, store]
  refine ⟨⟨?_, sourced⟩, fun _ _ => trivial⟩
  cases mapped : stage.map? doc with
  | none => exact awaited
  | some entry => exact awaited.push (emitted entry.1 entry.2 mapped) which

section Phases

variable {workers : Nat} {behindSites : List Site} {commitBehind : Action Error (List Queues) Unit}
  (hands : ∀ next ∈ behindSites.head?, ∀ key d, site.stage.Forwards next.stage (emits n) key d → emits (n + 1) key d)

include hands

theorem keeps_forward {rs : List Revision} (descend : ∀ r ∈ rs, Descends emits n site.stage r) :
    (forward behindSites rs : Action ε (List Queues) Unit).Keeps (TracedFrom emits sites n) := by
  cases behindSites with
  | nil => exact keeps_pure _
  | cons next rest =>
    have hands := hands next rfl
    have queued : (forwardAll next.stage rs : Action ε Queues Unit).Keeps (TracedAt emits sites (n + 1)) := by
      rintro q w ⟨awaited, sourced⟩
      obtain ⟨w', -, store, ran⟩ := run_forwardAll (ε := ε) next.stage rs q w
      rw [ran, store]
      refine ⟨⟨fun which e mem => ?_, sourced⟩, fun _ _ => trivial⟩
      cases which with
      | retract =>
        rcases List.mem_append.1 mem with waiting | mem
        · exact awaited .retract e waiting
        · exact hands _ _ (forwards_of_forwarded (fun r member => (descend r member).old) mem)
      | add =>
        rcases List.mem_append.1 mem with waiting | mem
        · exact awaited .add e waiting
        · refine hands _ _ (forwards_of_forwarded (fun r member d same => ?_) mem)
          cases same
          exact (descend r member).new
    exact (yields_behind (yields_here queued)).bind fun _ _ => keeps_record _

variable (later : commitBehind.Keeps (TracedFrom emits sites n))

include later

theorem keeps_finishPhase {p : Progress} (descend : ∀ r ∈ p.revisions, Descends emits n site.stage r) :
    (finishPhase behindSites commitBehind p).Keeps (TracedFrom emits sites n) := by
  refine (keeps_forward hands descend).bind fun _ => ?_
  cases p.failed with
  | none => exact keeps_pure _
  | some e =>
    have settled : (settle commitBehind : Action Error (List Queues) Unit).Keeps (TracedFrom emits sites n) := by
      refine later.attempt.bind fun ended _ => ?_
      rcases ended with (e | _) | x
      · exact keeps_pure _
      · exact yields_fail _
      · exact keeps_pure _
    exact settled.bind fun _ => yields_fail _

variable (lineage : Lineage emits sites) (at_ : sites[n]? = some site)

include lineage at_

theorem keeps_phase (which : Phase) :
    (phase workers site behindSites commitBehind which).Keeps (TracedFrom emits sites n) := by
  refine (yields_here (yields_drain which)).bind fun entries emitted => ?_
  split
  · exact keeps_pure _
  · refine (yields_process lineage at_ workers which fun group mem d member => ?_).bind fun p descend =>
      keeps_finishPhase hands later descend
    rw [(mem_groupByKey.1 mem).1] at member
    exact emitted (group.1, d) (mem_docsOf.1 member)

theorem keeps_phases : (phases workers site behindSites commitBehind).Keeps (TracedFrom emits sites n) :=
  (keeps_phase hands later lineage at_ .retract).bind fun _ =>
    (keeps_phase hands later lineage at_ .add).bind fun _ =>
      (keeps_call .commit site.scope none).bind fun _ => later.bind fun _ => keeps_pure _

end Phases

/-- A commit of a stage and those behind it keeps traced what a commit of those behind it does. -/
theorem keeps_commit_cons (lineage : Lineage emits sites) (at_ : sites[n]? = some site) {workers : Nat}
    {behindSites : List Site}
    (hands : ∀ next ∈ behindSites.head?, ∀ key d, site.stage.Forwards next.stage (emits n) key d → emits (n + 1) key d)
    (later : (behind (commit workers behindSites)).Keeps (TracedFrom emits sites n)) :
    (commit workers (site :: behindSites)).Keeps (TracedFrom emits sites n) := by
  refine (keeps_record _).bind fun _ => ?_
  refine (keeps_phases hands later lineage at_).attempt.bind fun ended _ => ?_
  rcases ended with (e | _) | x
  · exact (keeps_record _).bind fun _ => yields_fail _
  · exact yields_fail _
  · exact keeps_record _

/-- A commit of the stages from some stage on keeps the chain traced. -/
theorem keeps_commit (lineage : Lineage emits sites) (workers : Nat) {front behindSites : List Site}
    (chain : sites = front ++ behindSites) :
    (commit workers behindSites).Keeps (TracedFrom emits sites front.length) := by
  -- By induction on the stages that are still to commit; those before them say which place each one has.
  induction behindSites generalizing front with
  | nil => exact keeps_pure _
  | cons site rest ih =>
    have at_ : sites[front.length]? = some site := by simp [chain]
    have at_next : ∀ next ∈ rest.head?, sites[front.length + 1]? = some next := by
      intro next first
      rw [chain, List.getElem?_append_right (Nat.le_add_right _ 1), Nat.add_sub_cancel_left, List.getElem?_cons_succ,
        ← List.head?_eq_getElem?]
      exact first
    have later := @ih (front ++ [site]) (by rw [chain, List.append_assoc, List.singleton_append])
    rw [List.length_append, List.length_singleton] at later
    exact keeps_commit_cons lineage at_ (fun next first key d => lineage.forwards _ site next key d at_ (at_next next first))
      (yields_behind later)

end Traced

end Ingest

/-! ## Runs -/

namespace Ingestor

variable {ε : Type} {emits : Nat → Key → Document → Prop} {sites : List Site}

/-- An ingestor works on a chain, and its queues and its store have a property. -/
structure Carries (chain : List Site) (P : List Queues → Store → Prop) (i : Ingestor) (s : Store) : Prop where
  sites : i.sites = chain
  holds : P i.queues s

section Carries

variable {P : List Queues → Store → Prop}

theorem yields_onQueues {α : Type} {act : Action ε (List Queues) α} {Q : α → Prop} (yields : act.Yields P Q) :
    (onQueues act).Yields (Carries sites P) Q := by
  rintro i w ⟨same, holds⟩
  obtain ⟨holds', given⟩ := yields i.queues w holds
  exact ⟨⟨same, holds'⟩, given⟩

variable (commits : ∀ workers, (Ingest.commit workers sites).Keeps P)

include commits

theorem keeps_commit : Ingestor.commit.Keeps (Carries sites P) := by
  refine (Action.yields_getLocal fun _ _ carries => carries.sites).bind fun i same => ?_
  rw [same]
  exact yields_onQueues (commits _)

theorem keeps_commitInBackground : (commitInBackground : Action ε Ingestor Unit).Keeps (Carries sites P) := by
  refine (keeps_commit commits).attempt.bind fun ended _ => ?_
  rcases ended with (e | _) | x
  · exact Action.keeps_pure _
  · exact Action.keeps_modifyLocal fun i s carries => ⟨carries.sites, carries.holds⟩
  · exact Action.keeps_pure _

theorem keeps_push (which : Phase) {doc : Document}
    (enqueues : ∀ root ∈ sites.head?, (here (Ingest.enqueue root.stage which doc) : Action ε _ Unit).Keeps P) :
    (Ingestor.push which doc : Action ε Ingestor Unit).Keeps (Carries sites P) := by
  have queued : (Ingestor.enqueue which doc : Action ε Ingestor (Option Nat)).Keeps (Carries sites P) := by
    refine (Action.yields_getLocal fun _ _ carries => carries.sites).bind fun i same => ?_
    rw [rootStage?, same]
    cases head : sites.head? with
    | none => exact Action.keeps_pure _
    | some root =>
      refine (yields_onQueues (enqueues root head)).bind fun _ _ => ?_
      exact Action.keeps_getLocal.bind fun _ => Action.keeps_pure _
  refine queued.bind fun r => ?_
  cases r with
  | none => exact Action.keeps_pure _
  | some n =>
    refine Action.keeps_getLocal.bind fun i => ?_
    split
    · exact keeps_commitInBackground commits
    · exact Action.keeps_pure _

end Carries

/-- An ingestor and its store are traced. -/
abbrev Traced (emits : Nat → Key → Document → Prop) (chain : List Site) : Ingestor → Store → Prop :=
  Carries chain (TracedFrom emits chain 0)

theorem Traced.sourced {i : Ingestor} {s : Store} (traced : Traced emits sites i s) : Sourced emits sites s :=
  traced.holds.2

/-- In every run, whatever is stored is made of what was emitted. -/
theorem traced_after (lineage : Lineage emits sites) {t : Session} (traced : Traced emits sites t.1 t.2.store)
    (ops : List Op) : Traced emits sites (t.after ops).1 (t.after ops).2.store := by
  have commits : ∀ workers, (Ingest.commit workers sites).Keeps (TracedFrom emits sites 0) := fun workers =>
    @Ingest.keeps_commit emits sites lineage workers [] sites rfl
  have pushes : ∀ which doc, (Ingestor.push which doc : Action Error Ingestor Unit).Keeps (Traced emits sites) := by
    refine fun which doc => keeps_push commits which fun root head => ?_
    have enters := lineage.enters root doc
    rw [← List.head?_eq_getElem?] at enters
    exact yields_here (keeps_enqueue which fun key d => enters key d head)
  induction ops generalizing t with
  | nil => exact traced
  | cons op rest ih =>
    refine @ih (t.step op) ?_
    cases op with
    | ingest doc => exact (pushes .add doc t.1 t.2 traced).1
    | uningest doc => exact (pushes .retract doc t.1 t.2 traced).1
    | commit => exact (keeps_commit commits t.1 t.2 traced).1

end Ingestor

namespace Pipeline

variable {p : Pipeline} {sites : List Site} (stages : sites.map Site.stage = p.stages)

include stages

theorem stage_of_site {n : Nat} {site : Site} (at_ : sites[n]? = some site) : p.stages[n]? = some site.stage := by
  rw [← stages, List.getElem?_map, at_, Option.map_some]

/-- What the sites of a pipeline can emit. -/
theorem lineage (apart : (sites.map Site.scope).Nodup) : Lineage p.Emits sites where
  apart := apart
  enters root event key d at_ mapped := by
    have same : p.root = root.stage := Option.some.inj (stage_of_site stages at_)
    exact ⟨event, same ▸ mapped⟩
  forwards _ site next _ _ at_ at_next forwards :=
    ⟨site.stage, next.stage, stage_of_site stages at_, stage_of_site stages at_next, forwards⟩

end Pipeline

namespace Ingestor

/-- In every run from a fresh store, a bucket that any stage but the last has stored is accepted by the next
stage, and its key loses its index parts or the part of one unique count.  The store may fail and crash in any
way that lets the ingestor be opened; one that crashes shows what was stored up to there.  A key tells the number
of its index parts in 64 bits, which is enough for any list of verbs that fits into memory (`short`). -/
theorem boundaries_kept {verbs : List Verb} (apart : ColumnsApart verbs) (keeps : Verb.KeepsIndex verbs)
    (short : (Pipeline.composition verbs).length < 2 ^ 63) {config : Config} (valid : config.validate = .ok ())
    {plan : FaultPlan} (opens : plan.Opens) :
    ∃ t : Session, (openAt Store.root (Pipeline.ofVerbs verbs) config : Action Error Unit Ingestor).run ()
        { plan := plan } = (.ok t.1, (), t.2) ∧
      t.1.sites.map Site.stage = (Pipeline.ofVerbs verbs).stages ∧
      ∀ ops n site next key d, t.1.sites[n]? = some site → t.1.sites[n + 1]? = some next →
        ((t.after ops).2.store.buckets site.scope).get? key = some d →
        (∃ event, (Pipeline.ofVerbs verbs).Sends event n key) ∧
          Boundary (Pipeline.composition verbs) (fun event => (Pipeline.ofVerbs verbs).Sends event n key)
            next.stage key d := by
  obtain ⟨root, behindSites, ⟨i, w⟩, ran, rfl, -, stages, -, placed, same⟩ :=
    @run_openAt_of_opens Store.root (Pipeline.ofVerbs verbs) config valid { plan := plan } Store.nested_fresh
      Nat.zero_lt_one opens
  have lineage := Pipeline.lineage stages placed.nodup
  refine ⟨_, ran, stages, fun ops n site next key d at_ at_next stored => ?_⟩
  have traced : Traced (Pipeline.ofVerbs verbs).Emits (root :: behindSites)
      { sites := root :: behindSites, queues := {} :: idle behindSites, config } w.store := by
    refine ⟨rfl, ?_, fun m other key' d' _ found => ?_⟩
    · exact fed_idle 0 (root :: behindSites)
    · rw [same, Store.buckets_fresh] at found
      cases found
  have stores := (traced_after lineage traced ops).sourced n site key d at_ stored
  exact ⟨stores.exists_sends, Pipeline.boundary_of_stores apart (Pipeline.keepsIndex_composition keeps) short
    (Pipeline.stage_of_site stages at_) (Pipeline.stage_of_site stages at_next) stores⟩

/-- The second of three stages has stored a bucket whose key has lost its index part. -/
theorem boundaries_kept_indexed_count :
    let verbs : List Verb := [.indexedBy "i", .brokenDownBy "a" "A", .countUniqueValues "u" "U"]
    let p := Pipeline.ofVerbs verbs
    let event : Document := ⟨[("a", .text "x"), ("i", .int 1), ("u", .text "y")]⟩
    let key : Key := ⟨[.text "x", .text "y"]⟩
    let site : Site := ⟨dropStage p.root.reduces, 1⟩
    let next : Site := ⟨tallyStage "u" "U" p.root.reduces, 2⟩
    ∃ t : Session, (openAt Store.root p {} : Action Error Unit Ingestor).run () {} = (.ok t.1, (), t.2) ∧
      t.1.sites = [⟨p.root, 0⟩, site, next] ∧
      ∃ d, ((t.after [.ingest event, .commit]).2.store.buckets site.scope).get? key = some d ∧
        (∃ event, p.Sends event 1 key) ∧
        Boundary (Pipeline.composition verbs) (fun event => p.Sends event 1 key) next.stage key d := by
  intro verbs p event key site next
  have opened : (Session.start? p {} .never).map (fun t => t.1.sites) = some [⟨p.root, 0⟩, site, next] := by cbv
  have stored : ((Session.start? p {} .never).bind fun t =>
      (t.after [.ingest event, .commit]).2.store.get? 1 key).isSome := by decide +kernel
  obtain ⟨t, started, sites⟩ := Option.map_eq_some_iff.1 opened
  rw [started, Option.bind_some] at stored
  obtain ⟨d, stored⟩ := Option.isSome_iff_exists.1 stored
  obtain ⟨t', ran, -, bounds⟩ := @boundaries_kept verbs ⟨by decide, by decide⟩
    (Verb.keepsIndex_of_not_mem (by decide)) (by decide) {} rfl .never FaultPlan.never_rootOnly.mild.opens
  obtain rfl : t = t' := session_unique (run_openAt_of_start? started) ran
  exact ⟨t, ran, sites, d, stored, bounds _ 1 site next key d (by rw [sites]; rfl) (by rw [sites]; rfl) stored⟩

/-- Where index parts are dropped behind the last index, keys have no number of index parts, and the stage that
should drop them refuses every bucket. -/
theorem dropped_index_refused :
    let verbs : List Verb := [.indexedBy "i", .dropIndex]
    let p := Pipeline.ofVerbs verbs
    let event : Document := ⟨[("i", .int 1)]⟩
    let d : Document := ⟨[("Count", .int 1)]⟩
    let parent : Site := ⟨p.root, 0⟩
    let child : Site := ⟨dropStage p.root.reduces, 1⟩
    ColumnsApart verbs ∧
      ∃ t : Session, (openAt Store.root p {} : Action Error Unit Ingestor).run () {} = (.ok t.1, (), t.2) ∧
        t.1.sites = [parent, child] ∧
        ((t.after [.ingest event, .commit]).2.store.buckets parent.scope).get? ⟨[]⟩ = some d ∧
        child.stage.map? (Stage.tagged ⟨[]⟩ d) = none := by
  intro verbs p event d parent child
  have traced : (Session.start? p {} .never).map (fun t =>
      (t.1.sites, (t.after [.ingest event, .commit]).2.store.get? 0 ⟨[]⟩)) = some ([parent, child], some d) := by
    cbv
  obtain ⟨t, started, same⟩ := Option.map_eq_some_iff.1 traced
  obtain ⟨sites, stored⟩ := Prod.mk.inj same
  exact ⟨⟨by decide, by decide⟩, t, run_openAt_of_start? started, sites, stored, rfl⟩

end Ingestor

end Rollup
