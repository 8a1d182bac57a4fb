import Rollup.Proofs.Ingest.Opening
import Rollup.Proofs.Verb.Alike

/-!
# Histories

A history tells which documents of a run have survived: those that were ingested and not retracted.
A document may be retracted once it was committed.  Throughout a history the counts of the root's
buckets, corrected by what is queued, are the numbers of survivors (`Tallied`).
-/

namespace Rollup.Ingestor

open Ingest Document

/-- The number of documents that belong to a bucket. -/
def members (root : Stage) (docs : List Document) (key : Key) : Nat :=
  docs.countP fun d => root.key? d = some key

theorem members_append (root : Stage) (front back : List Document) (key : Key) :
    members root (front ++ back) key = members root front key + members root back key :=
  List.countP_append

theorem members_cons (root : Stage) (d : Document) (docs : List Document) (key : Key) :
    members root (d :: docs) key = members root docs key + if root.key? d = some key then 1 else 0 := by
  rw [members, List.countP_cons]
  simp [members]

/-- The documents of a run that have survived, those that a commit has reached first and then those
that none has reached yet. -/
inductive History (t : Session) : List Op → List Document → List Document → Prop
  | start : History t [] [] []
  | ingest {ops : List Op} {committed pending : List Document} (d : Document) :
      History t ops committed pending → History t (ops ++ [.ingest d]) committed (pending ++ [d])
  | uningest {ops : List Op} {front back pending : List Document} {e : Document} (d : Document) :
      History t ops (front ++ e :: back) pending → Same d e →
      History t (ops ++ [.uningest d]) (front ++ back) pending
  | commit {ops : List Op} {committed pending : List Document} :
      History t ops committed pending → History t (ops ++ [.commit]) committed pending
  /-- Commits have reached everything when nothing is queued. -/
  | settle {ops : List Op} {committed pending : List Document} :
      History t ops committed pending → (t.after ops).1.queued = 0 →
      History t ops (committed ++ pending) []

/-- Survivors were ingested. -/
theorem History.ingested {t : Session} {ops : List Op} {committed pending : List Document}
    (history : History t ops committed pending) : ∀ d ∈ committed ++ pending, .ingest d ∈ ops := by
  induction history with
  | start => simp
  | ingest d _ ih =>
    intro e mem
    rw [← List.append_assoc, List.mem_append, List.mem_singleton] at mem
    rcases mem with earlier | rfl
    · exact List.mem_append_left _ (ih e earlier)
    · exact List.mem_append_right _ List.mem_cons_self
  | uningest d _ _ ih =>
    intro e mem
    apply List.mem_append_left _ (ih e _)
    simp only [List.mem_append, List.mem_cons] at mem ⊢
    tauto
  | commit _ ih => exact fun e mem => List.mem_append_left _ (ih e mem)
  | settle _ _ ih =>
    rw [List.append_nil]
    exact ih

/-! ## Counts of survivors -/

/-- The root counts survivors, but for what is queued; only what is stored is retracted. -/
structure Tallied (root : Stage) (q : Queues) (b : Ingest.Buckets) (committed pending : List Document) :
    Prop where
  count : ∀ key, amount b Field.count key + (docsOf q.additions key).length -
    (docsOf q.retractions key).length = members root (committed ++ pending) key
  committed_stored : ∀ d ∈ committed, ∀ key, root.key? d = some key → key ∈ domain b
  pending_stored : ∀ d ∈ pending, ∀ key, root.key? d = some key →
    key ∈ domain b ∨ docsOf q.additions key ≠ []
  retractions_stored : ∀ e ∈ q.retractions, e.1 ∈ domain b

theorem length_docsOf_append (entries : List (Key × Document)) (e : Key × Document) (key : Key) :
    (docsOf (entries ++ [e]) key).length = (docsOf entries key).length + if e.1 = key then 1 else 0 := by
  rw [docsOf_append, List.length_append, docsOf_cons]
  split <;> rfl

theorem docsOf_append_ne_nil {entries : List (Key × Document)} {key : Key} (filled : docsOf entries key ≠ [])
    (e : Key × Document) : docsOf (entries ++ [e]) key ≠ [] := by
  rw [docsOf_append]
  exact List.append_ne_nil_of_left_ne_nil filled _

namespace Tallied

variable {root : Stage} {q : Queues} {b : Ingest.Buckets} {committed pending : List Document}

theorem ingest (tallied : Tallied root q b committed pending) (d : Document) :
    Tallied root ((root.map? d).elim q (q.push · .add)) b committed (pending ++ [d]) := by
  have survivors : ∀ key, members root (committed ++ (pending ++ [d])) key =
      members root (committed ++ pending) key + if root.key? d = some key then 1 else 0 := by
    intro key
    rw [← List.append_assoc, members_append, members_cons]
    simp [members]
  cases made : root.map? d with
  | none =>
    have keyless : root.key? d = none := by rw [Stage.key?, made]; rfl
    refine ⟨fun key => ?_, tallied.committed_stored, fun e mem key own => ?_, tallied.retractions_stored⟩
    · rw [survivors, keyless]
      exact tallied.count key
    · rcases List.mem_append.1 mem with mem | mem
      · exact tallied.pending_stored e mem key own
      · rw [List.mem_singleton.1 mem, keyless] at own
        cases own
  | some entry =>
    have keyed : root.key? d = some entry.1 := by rw [Stage.key?, made]; rfl
    refine ⟨fun key => ?_, tallied.committed_stored, fun e mem key own => ?_, tallied.retractions_stored⟩
    · have count := tallied.count key
      rw [survivors, keyed]
      show amount b Field.count key + ((docsOf (q.additions ++ [entry]) key).length : Int) - _ = _
      rw [length_docsOf_append]
      simp only [Option.some.injEq]
      show _ - ((docsOf q.retractions key).length : Int) = _
      split <;> push_cast <;> omega
    · rcases List.mem_append.1 mem with mem | mem
      · exact (tallied.pending_stored e mem key own).imp_right fun filled => docsOf_append_ne_nil filled entry
      · rw [List.mem_singleton.1 mem, keyed] at own
        cases own
        exact .inr (List.ne_nil_of_mem (mem_docsOf.2 (List.mem_append_right _ List.mem_cons_self)))

theorem uningest {front back : List Document} {e : Document}
    (tallied : Tallied root q b (front ++ e :: back) pending) (d : Document)
    (same : root.key? d = root.key? e) :
    Tallied root ((root.map? d).elim q (q.push · .retract)) b (front ++ back) pending := by
  have survivors : ∀ key, members root (front ++ e :: back ++ pending) key =
      members root (front ++ back ++ pending) key + if root.key? d = some key then 1 else 0 := by
    intro key
    rw [members_append, members_append, members_cons, members_append, members_append, same]
    omega
  have kept : ∀ d ∈ front ++ back, ∀ key, root.key? d = some key → key ∈ domain b := by
    intro d mem
    refine tallied.committed_stored d ?_
    rcases List.mem_append.1 mem with mem | mem
    · exact List.mem_append_left _ mem
    · exact List.mem_append_right _ (List.mem_cons_of_mem _ mem)
  cases made : root.map? d with
  | none =>
    have keyless : root.key? d = none := by rw [Stage.key?, made]; rfl
    refine ⟨fun key => ?_, kept, tallied.pending_stored, tallied.retractions_stored⟩
    have count := tallied.count key
    rw [survivors, keyless] at count
    exact count
  | some entry =>
    have keyed : root.key? d = some entry.1 := by rw [Stage.key?, made]; rfl
    -- The survivor that is taken away was committed, so its bucket is stored.
    have stored : entry.1 ∈ domain b :=
      tallied.committed_stored e (List.mem_append_right _ List.mem_cons_self) _ (same ▸ keyed)
    refine ⟨fun key => ?_, kept, tallied.pending_stored, fun e' mem => ?_⟩
    · have count := tallied.count key
      rw [survivors, keyed] at count
      show amount b Field.count key + ((docsOf q.additions key).length : Int) -
        ((docsOf (q.retractions ++ [entry]) key).length : Int) = _
      rw [length_docsOf_append]
      simp only [Option.some.injEq] at count
      split at count <;> simp_all
      omega
    · rcases List.mem_append.1 mem with mem | mem
      · exact tallied.retractions_stored e' mem
      · rw [List.mem_singleton.1 mem]
        exact stored

/-- A cycle works off what is queued. -/
theorem cycle {verbs : List Verb} (tallied : Tallied root q b committed pending)
    (grounded : Grounded verbs root b q) {first second : List Group}
    (whole_first : first.Perm (groupByKey q.retractions))
    (whole_second : second.Perm (groupByKey q.additions)) (small : Ingest.load b q < 2 ^ 53) :
    Tallied root {} (afterPhase root .add (afterPhase root .retract b first) second) committed pending := by
  have domains := @mem_domain_cycle root b q _ _ whole_first.subperm whole_second
  refine ⟨fun key => ?_, fun d mem key own => ?_, fun d mem key own => ?_, fun e mem => by cases mem⟩
  · rw [← tallied.count key, grounded.amount_cycle whole_first whole_second small key,
      taken_of_stored tallied.retractions_stored]
    show _ + (0 : Int) - 0 = _
    omega
  · exact (domains key).2 (.inl (tallied.committed_stored d mem key own))
  · exact .inl ((domains key).2 (tallied.pending_stored d mem key own))

theorem settle (tallied : Tallied root q b committed pending) (none : q.additions = []) :
    Tallied root q b (committed ++ pending) [] := by
  refine ⟨fun key => ?_, fun d mem key own => ?_, fun d mem => (by cases mem), tallied.retractions_stored⟩
  · rw [List.append_nil]
    exact tallied.count key
  · rcases List.mem_append.1 mem with mem | mem
    · exact tallied.committed_stored d mem key own
    · refine (tallied.pending_stored d mem key own).resolve_right fun filled => filled ?_
      rw [none]
      rfl

end Tallied

/-! ## Runs -/

section Runs

variable {verbs : List Verb} {root : Site} {behindSites : List Site} {t : Session}

/-- A call keeps the tally, once its document is accounted for. -/
theorem tallied_step {q : Queues} (sound : Sound verbs root behindSites q t) (small : t.Small)
    (spares : t.2.plan.Spares root.scope) (op : Op) {committed pending : List Document}
    (tallied : Tallied root.stage (op.queue root.stage q) (t.2.store.buckets root.scope) committed pending) :
    ∃ q', Sound verbs root behindSites q' (t.step op) ∧ (t.step op).2.plan = t.2.plan ∧
      Tallied root.stage q' ((t.step op).2.store.buckets root.scope) committed pending ∧
      (op = .commit → q' = {}) := by
  obtain ⟨q', sound', plan, -, turn, none⟩ := sound.step small op
  refine ⟨q', sound', plan, ?_, fun same => none same spares⟩
  have load := sound.load_queue_le op
  have standing := sound.standing_queue op
  generalize (t.step op).2.store = s' at turn
  cases turn with
  | waits => exact tallied
  | cycles cycled spared =>
    obtain ⟨rfl, whole_first, whole_second⟩ := spared spares
    rw [standing.buckets_of_cycled cycled]
    refine tallied.cycle standing.grounded whole_first whole_second ?_
    rw [Session.Small] at small
    omega

/-- Throughout a history the root counts the survivors. -/
theorem tallied_of_history (same_key : ∀ d e, Same d e → root.stage.key? d = root.stage.key? e)
    (sound : Sound verbs root behindSites {} t) (empty : t.2.store.buckets root.scope = .empty)
    (spares : t.2.plan.Spares root.scope) {ops : List Op} {committed pending : List Document}
    (small : ∀ done, done <+: ops → (t.after done).Small) (history : History t ops committed pending) :
    ∃ q, Sound verbs root behindSites q (t.after ops) ∧ (t.after ops).2.plan = t.2.plan ∧
      Tallied root.stage q ((t.after ops).2.store.buckets root.scope) committed pending := by
  have earlier : ∀ {ops : List Op} {op : Op}, (∀ done, done <+: ops ++ [op] → (t.after done).Small) →
      ∀ done, done <+: ops → (t.after done).Small :=
    fun small done before => small done (before.trans (List.prefix_append _ _))
  -- The induction is on the history; a call settles the tally of the one before.
  induction history with
  | start =>
    refine ⟨{}, sound, rfl, fun key => ?_, fun d mem => (by cases mem), fun d mem => (by cases mem),
      fun e mem => by cases mem⟩
    show amount (t.2.store.buckets root.scope) Field.count key + (0 : Int) - 0 = 0
    rw [empty]
    rfl
  | ingest d history ih =>
    obtain ⟨q, sound₁, plan, tallied⟩ := ih (earlier small)
    obtain ⟨q', sound', plan', tallied', -⟩ := tallied_step sound₁
      (small _ (List.prefix_append _ _)) (plan ▸ spares) (.ingest d) (tallied.ingest d)
    rw [Session.after_append]
    exact ⟨q', sound', plan'.trans plan, tallied'⟩
  | uningest d history same ih =>
    obtain ⟨q, sound₁, plan, tallied⟩ := ih (earlier small)
    obtain ⟨q', sound', plan', tallied', -⟩ := tallied_step sound₁
      (small _ (List.prefix_append _ _)) (plan ▸ spares) (.uningest d) (tallied.uningest d (same_key _ _ same))
    rw [Session.after_append]
    exact ⟨q', sound', plan'.trans plan, tallied'⟩
  | commit history ih =>
    obtain ⟨q, sound₁, plan, tallied⟩ := ih (earlier small)
    obtain ⟨q', sound', plan', tallied', -⟩ := tallied_step sound₁
      (small _ (List.prefix_append _ _)) (plan ▸ spares) .commit tallied
    rw [Session.after_append]
    exact ⟨q', sound', plan'.trans plan, tallied'⟩
  | settle history blank ih =>
    obtain ⟨q, sound₁, plan, tallied⟩ := ih small
    refine ⟨q, sound₁, plan, tallied.settle ?_⟩
    rw [queued, sound₁.queues] at blank
    exact List.eq_nil_of_length_eq_zero (Nat.eq_zero_of_add_eq_zero blank).1

/-- Where nothing is queued, the root has what survives. -/
theorem tallied_of_drained (same_key : ∀ d e, Same d e → root.stage.key? d = root.stage.key? e)
    (sound : Sound verbs root behindSites {} t) (empty : t.2.store.buckets root.scope = .empty)
    (spares : t.2.plan.Spares root.scope) {ops : List Op} {committed pending : List Document}
    (small : ∀ done, done <+: ops → (t.after done).Small) (history : History t ops committed pending)
    (drained : (t.after ops).1.queued = 0) :
    Sound verbs root behindSites {} (t.after ops) ∧
      Tallied root.stage {} ((t.after ops).2.store.buckets root.scope) committed pending := by
  obtain ⟨q, sound₁, plan, tallied⟩ := tallied_of_history same_key sound empty spares small history
  obtain rfl : q = {} := sound₁.eq_empty_of_drained drained
  exact ⟨sound₁, tallied⟩

/-- A run that ends in a commit has worked off everything. -/
theorem tallied_after_commit (same_key : ∀ d e, Same d e → root.stage.key? d = root.stage.key? e)
    (sound : Sound verbs root behindSites {} t) (empty : t.2.store.buckets root.scope = .empty)
    (spares : t.2.plan.Spares root.scope) {ops : List Op} {committed pending : List Document}
    (small : ∀ done, done <+: ops ++ [.commit] → (t.after done).Small)
    (history : History t ops committed pending) :
    Sound verbs root behindSites {} (t.after (ops ++ [.commit])) ∧
      Tallied root.stage {} ((t.after (ops ++ [.commit])).2.store.buckets root.scope) committed pending :=
  tallied_of_drained same_key sound empty spares small history.commit (sound.queued_after_commit spares small)

/-- What a call queues for addition is a document that it ingests. -/
theorem filled_queue_iff {root : Stage} {q : Queues} {op : Op} {key : Key} :
    docsOf (op.queue root q).additions key ≠ [] ↔
      docsOf q.additions key ≠ [] ∨ ∃ d, op = .ingest d ∧ root.key? d = some key := by
  cases op with
  | commit => simp [Op.queue]
  | uningest d => cases made : root.map? d <;> simp [Op.queue, made, Queues.push]
  | ingest d =>
    cases made : root.map? d with
    | none => simp [Op.queue, made, Stage.key?]
    | some entry =>
      have keyed : root.key? d = some entry.1 := by rw [Stage.key?, made]; rfl
      have last : docsOf [entry] key = [] ↔ ¬ entry.1 = key := by
        by_cases same : entry.1 = key <;> simp [docsOf, same]
      simp only [Op.queue, made, Option.elim_some, Queues.push, docsOf_append, ne_eq, List.append_eq_nil_iff, last,
        not_and_or, not_not, keyed, Op.ingest.injEq, exists_eq_left', Option.some.injEq]

/-- The buckets of the root, stored or about to be, are those of the documents that were ingested. -/
theorem bucket_iff_ingested (sound : Sound verbs root behindSites {} t)
    (empty : t.2.store.buckets root.scope = .empty) (spares : t.2.plan.Spares root.scope) {ops : List Op}
    (small : ∀ done, done <+: ops → (t.after done).Small) :
    ∃ q, Sound verbs root behindSites q (t.after ops) ∧ (t.after ops).2.plan = t.2.plan ∧
      ∀ key, key ∈ domain ((t.after ops).2.store.buckets root.scope) ∨ docsOf q.additions key ≠ [] ↔
        ∃ d, .ingest d ∈ ops ∧ root.stage.key? d = some key := by
  induction ops using List.reverseRecOn with
  | nil =>
    refine ⟨{}, sound, rfl, fun key => ?_⟩
    rw [show (t.after []).2.store = t.2.store from rfl, empty]
    simp [show domain (SortedMap.empty : Ingest.Buckets) = ∅ from rfl, docsOf]
  | append_singleton ops op ih =>
    obtain ⟨q, sound₁, plan, origins⟩ := ih fun done before => small done (before.trans (List.prefix_append _ _))
    obtain ⟨q', sound', plan', -, turn, -⟩ := sound₁.step (small _ (List.prefix_append _ _)) op
    have standing := sound₁.standing_queue op
    -- Before the call commits, the document that it ingests is queued besides what was there.
    have queued : ∀ key, key ∈ domain ((t.after ops).2.store.buckets root.scope) ∨
        docsOf (op.queue root.stage q).additions key ≠ [] ↔
        ∃ d, .ingest d ∈ ops ++ [op] ∧ root.stage.key? d = some key := by
      intro key
      rw [filled_queue_iff, ← or_assoc, origins]
      simp only [List.mem_append, List.mem_singleton, or_and_right, exists_or, eq_comm]
    rw [Session.after_append]
    refine ⟨q', sound', plan'.trans plan, fun key => ?_⟩
    rw [← queued]
    generalize ((t.after ops).step op).2.store = s' at turn
    cases turn with
    | waits => exact Iff.rfl
    | cycles cycled spared =>
      obtain ⟨rfl, -, whole_second⟩ := spared (plan ▸ spares)
      rw [standing.buckets_of_cycled cycled, mem_domain_cycle cycled.first_part whole_second]
      exact or_iff_left fun filled => filled rfl

/-- Buckets come from documents that were ingested. -/
theorem ingested_of_bucket (sound : Sound verbs root behindSites {} t)
    (empty : t.2.store.buckets root.scope = .empty) (spares : t.2.plan.Spares root.scope) {ops : List Op}
    (small : ∀ done, done <+: ops → (t.after done).Small) :
    ∃ q, Sound verbs root behindSites q (t.after ops) ∧ (t.after ops).2.plan = t.2.plan ∧
      ∀ key, key ∈ domain ((t.after ops).2.store.buckets root.scope) ∨ docsOf q.additions key ≠ [] →
        ∃ d, .ingest d ∈ ops ∧ root.stage.key? d = some key := by
  obtain ⟨q, sound', plan, origins⟩ := bucket_iff_ingested sound empty spares small
  exact ⟨q, sound', plan, fun key => (origins key).1⟩

end Runs

end Rollup.Ingestor
