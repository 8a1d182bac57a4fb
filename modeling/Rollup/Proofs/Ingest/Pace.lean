import Rollup.Proofs.Ingest.Histories

/-!
# When sessions commit

Where no access fails, how much is queued at the root after a run depends on the calls, on which
documents the root accepts and on when a commit is due, and not on the buckets (`Sound.queued_after`).
So sessions whose roots accept the same documents commit after the same calls, and a history of one is a
history of the other (`History.of_queued`).
-/

namespace Rollup.Ingestor

open Ingest Document

/-- The number of entries queued at the root after a call. -/
def Op.queued (accepts : Document → Bool) (due : Nat → Bool) (n : Nat) : Op → Nat
  | ingest doc | uningest doc => if accepts doc then if due (n + 1) then 0 else n + 1 else n
  | commit => 0

/-- Only the documents of a run matter to what is queued. -/
theorem Op.foldl_queued_congr {accepts accepts' : Document → Bool} {ops : List Op}
    (same : ∀ d, .ingest d ∈ ops ∨ .uningest d ∈ ops → accepts d = accepts' d) (due : Nat → Bool) (n : Nat) :
    ops.foldl (Op.queued accepts due) n = ops.foldl (Op.queued accepts' due) n := by
  apply List.foldl_ext
  intro n op mem
  cases op with
  | ingest d => rw [Op.queued, Op.queued, same d (.inl mem)]
  | uningest d => rw [Op.queued, Op.queued, same d (.inr mem)]
  | commit => rfl

theorem isDue_commit (i : Ingestor) (w : World) : (Ingestor.commit.run i w).2.1.isDue = i.isDue := by
  rw [run_commit_eq]
  rfl

/-- A document that the root accepts is one entry more. -/
theorem size_elim_push (q : Queues) (phase : Phase) (made : Option (Key × Document)) :
    (made.elim q (q.push · phase)).size = if made.isSome then q.size + 1 else q.size := by
  cases made with
  | none => rfl
  | some entry => cases phase <;> simp [Queues.push, Queues.size] <;> omega

namespace Sound

variable {verbs : List Verb} {root : Site} {behindSites : List Site} {q : Queues} {t : Session}

theorem queued_push (sound : Sound verbs root behindSites q t) (small : t.Small)
    (spares : t.2.plan.Spares root.scope) (phase : Phase) (doc : Document) :
    let t' := ((Ingestor.push phase doc : Action Error Ingestor Unit).run t.1 t.2).2
    t'.1.isDue = t.1.isDue ∧ t'.1.queued =
      if (root.stage.map? doc).isSome then if t.1.isDue (t.1.queued + 1) then 0 else t.1.queued + 1
      else t.1.queued := by
  obtain ⟨t₁, ran, sound₁, plan, store, -⟩ := sound.enqueue (ε := Error) phase doc
  have due : t₁.1.isDue = t.1.isDue := by
    obtain ⟨i', w', rfl, -, -, ran'⟩ := run_enqueueRoot (ε := Error) sound.sites sound.queues phase doc t.2
    obtain rfl : t₁ = (_, w') := congrArg Prod.snd (ran.symm.trans ran')
    rfl
  have queued : t₁.1.queued = if (root.stage.map? doc).isSome then t.1.queued + 1 else t.1.queued := by
    rw [sound₁.queued_eq, size_elim_push, sound.queued_eq]
  have load : 2 * t₁.load < 2 ^ 53 := by
    have pushed := load_elim_push (t.2.store.buckets root.scope) q phase (root.stage.map? doc)
    rw [Session.Small, sound.load_eq] at small
    rw [sound₁.load_eq, store]
    omega
  rw [run_push_eq ran (sound₁.commit_ne_crash load), ← due]
  cases made : root.stage.map? doc with
  | none =>
    rw [made] at queued
    exact ⟨rfl, queued⟩
  | some entry =>
    rw [made] at queued
    simp only [Option.map_some, Option.any_some, Option.isSome_some, if_true] at queued ⊢
    rw [queued]
    split
    · exact ⟨isDue_commit t₁.1 t₁.2, sound₁.queued_commit load (plan ▸ spares)⟩
    · exact ⟨rfl, queued⟩

/-- A call leaves as much queued as its document and the queue tell. -/
theorem queued_step (sound : Sound verbs root behindSites q t) (small : t.Small)
    (spares : t.2.plan.Spares root.scope) (op : Op) :
    (t.step op).1.isDue = t.1.isDue ∧
      (t.step op).1.queued = op.queued (fun d => (root.stage.map? d).isSome) t.1.isDue t.1.queued := by
  cases op with
  | ingest doc => exact sound.queued_push small spares .add doc
  | uningest doc => exact sound.queued_push small spares .retract doc
  | commit =>
    have load : 2 * t.load < 2 ^ 53 := by
      rw [Session.Small] at small
      omega
    exact ⟨isDue_commit t.1 t.2, sound.queued_commit load spares⟩

/-- A run leaves as much queued as its documents tell. -/
theorem queued_after {ops : List Op} (sound : Sound verbs root behindSites q t)
    (spares : t.2.plan.Spares root.scope) (small : ∀ done, done <+: ops → (t.after done).Small) :
    (t.after ops).1.queued = ops.foldl (Op.queued (fun d => (root.stage.map? d).isSome) t.1.isDue) t.1.queued := by
  induction ops generalizing q t with
  | nil => rfl
  | cons op rest ih =>
    have first := small [] List.nil_prefix
    obtain ⟨q', sound', plan, -⟩ := sound.step first op
    obtain ⟨due, queued⟩ := sound.queued_step first spares op
    have later := ih sound' (plan ▸ spares) fun done before => small (op :: done) ((List.prefix_cons_inj op).2 before)
    rw [due, queued] at later
    exact later

/-- Sessions whose roots accept the same documents have as much queued after every call. -/
theorem queued_congr {verbs' : List Verb} {root' : Site} {behindSites' : List Site} {t' : Session} {ops : List Op}
    (sound : Sound verbs root behindSites {} t) (sound' : Sound verbs' root' behindSites' {} t')
    (due : t.1.isDue = t'.1.isDue) (spares : t.2.plan.Spares root.scope) (spares' : t'.2.plan.Spares root'.scope)
    (small : ∀ done, done <+: ops → (t.after done).Small) (small' : ∀ done, done <+: ops → (t'.after done).Small)
    (accepts : ∀ d, .ingest d ∈ ops ∨ .uningest d ∈ ops →
      (root.stage.map? d).isSome = (root'.stage.map? d).isSome) :
    ∀ done, done <+: ops → (t.after done).1.queued = (t'.after done).1.queued := by
  intro done before
  rw [sound.queued_after spares fun earlier early => small earlier (early.trans before),
    sound'.queued_after spares' fun earlier early => small' earlier (early.trans before), sound.queued_eq,
    sound'.queued_eq, due]
  apply Op.foldl_queued_congr
  intro d mem
  exact accepts d (mem.imp (fun mem => before.subset mem) fun mem => before.subset mem)

end Sound

/-- From the start a commit is due when the configuration says so. -/
theorem isDue_of_openAt {p : Pipeline} {config : Config} (valid : config.validate = .ok ()) {t : Session}
    (ran : (openAt Store.root p config : Action Error Unit Ingestor).run () {} = (.ok t.1, (), t.2)) (n : Nat) :
    t.1.isDue n = (!config.autoCommitDisabled && config.commitThreshold ≤ n) := by
  obtain ⟨root, behindSites, t', ran', start, -⟩ :=
    @run_openAt Store.root p config valid {} Store.nested_fresh Nat.zero_lt_one FaultPlan.never_rootOnly.mild
  obtain rfl : t = t' := session_unique ran ran'
  rw [start, isDue]
  simp

/-- Histories tell sessions apart only by when nothing is queued. -/
theorem History.of_queued {t t' : Session} {ops : List Op} {committed pending : List Document}
    (same : ∀ done, done <+: ops → (t.after done).1.queued = (t'.after done).1.queued)
    (history : History t ops committed pending) : History t' ops committed pending := by
  have earlier : ∀ {ops : List Op} {op : Op},
      (∀ done, done <+: ops ++ [op] → (t.after done).1.queued = (t'.after done).1.queued) →
      ∀ done, done <+: ops → (t.after done).1.queued = (t'.after done).1.queued :=
    fun same done before => same done (before.trans (List.prefix_append _ _))
  induction history with
  | start => exact .start
  | ingest d _ ih => exact (ih (earlier same)).ingest d
  | uningest d _ alike ih => exact (ih (earlier same)).uningest d alike
  | commit _ ih => exact (ih (earlier same)).commit
  | settle _ blank ih => exact (ih same).settle (same _ List.prefix_rfl ▸ blank)

end Rollup.Ingestor
