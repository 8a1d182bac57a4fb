import Rollup.Proofs.Ingest.Steadiness

/-!
# Recovering from failures

A swap of an old contribution for a new one that waits at a chained stage, or that other keys fail to
make, is made as a whole (`swaps_whole`), and a flush that fails loses nothing
(`flush_failures_recovered`), as far as the bucket was stored before anything failed and its own accesses
do not fail.

From a bucket that is not stored nothing is removed, so an old contribution that waits there is never
taken back (`flush_failure_counted_twice`).  Where the removal itself fails it is dropped while the
addition waits (`swap_split`).
-/

namespace Rollup

/-- Only flushes of the root scope fail, and they do not crash. -/
def FaultPlan.FlushOnly (plan : FaultPlan) : Prop :=
  ∀ n call f, plan n call = some f → call.scope = Store.root ∧ call.kind = .commit ∧ ∃ e, f = .error e

namespace FaultPlan.FlushOnly

variable {plan : FaultPlan} (faults : plan.FlushOnly)

include faults

theorem civil : plan.Civil := by
  intro n call crashing
  obtain ⟨-, -, e, wrong⟩ := faults n call .crash crashing
  cases wrong

theorem opens : plan.Opens := by
  rintro scope key? f ⟨n, depth, failing⟩
  obtain ⟨-, wrong, -⟩ := faults n _ f failing
  cases wrong

theorem sparesKey (scope : ScopeId) (key : Key) : plan.SparesKey scope key := by
  refine fun f => ⟨?_, ?_⟩
  · rintro ⟨n, depth, failing⟩
    obtain ⟨-, wrong, -⟩ := faults n _ f failing
    cases wrong
  · rintro ⟨n, depth, failing⟩
    obtain ⟨-, wrong, -⟩ := faults n _ f failing
    cases wrong

end FaultPlan.FlushOnly

namespace Ingestor

open Ingest Document

/-! ## From the start -/

theorem counting_of_chained {verbs : List Verb} {stage : Stage} {stages : List Stage}
    (chained : Chained verbs (stage :: stages)) (counting : Counting stage.reduces) :
    ∀ other ∈ stage :: stages, Counting other.reduces := by
  induction stages generalizing stage with
  | nil =>
    intro other mem
    rw [List.mem_singleton.1 mem]
    exact counting
  | cons next rest ih =>
    obtain ⟨⟨route, merges⟩, later⟩ := List.isChain_cons_cons.1 chained
    intro other mem
    rcases List.mem_cons.1 mem with rfl | mem
    · exact counting
    · exact ih later merges.counting other mem

/-- Opening the pipeline of verbs on a fresh store starts a level session with nothing in it. -/
theorem level_of_openAt {verbs : List Verb} (apart : ColumnsApart verbs) {config : Config}
    (valid : config.validate = .ok ()) {plan : FaultPlan} (opens : plan.Opens) (civil : plan.Civil) :
    ∃ t : Session, (openAt Store.root (Pipeline.ofVerbs verbs) config : Action Error Unit Ingestor).run ()
        { plan := plan } = (.ok t.1, (), t.2) ∧
      t.2.plan = plan ∧ t.1.config = config ∧ t.1.sites.map Site.stage = (Pipeline.ofVerbs verbs).stages ∧
      (∃ root behindSites, Level (Pipeline.composition verbs) root behindSites t) ∧ t.Fits 0 := by
  obtain ⟨root, behindSites, ⟨i, w⟩, ran, rfl, plan, stages, -, placed, same⟩ :=
    @run_openAt_of_opens Store.root (Pipeline.ofVerbs verbs) config valid { plan := plan } Store.nested_fresh
      Nat.zero_lt_one opens
  have empty : ∀ id, w.store.buckets id = .empty := fun id => (same id).trans (Store.buckets_fresh id)
  have root_stage : root.stage = Stage.root (Pipeline.composition verbs) := (List.cons.inj stages).1
  have chained := Pipeline.chained_ofVerbs apart
  rw [← stages] at chained
  have counting := Pipeline.counting_composition apart
  have stocked : ∀ e ∈ (root :: behindSites).zip ({} :: idle behindSites),
      Stocked (Pipeline.composition verbs) e.1.stage (w.store.buckets e.1.scope) e.2 ∧
        Ingest.Fits 0 e.1.stage (w.store.buckets e.1.scope) e.2 := by
    intro e mem
    -- Nothing is stored and nothing queued.
    obtain ⟨site, queue⟩ := List.of_mem_zip mem
    have none : e.2 = {} := by
      rcases List.mem_cons.1 queue with none | later
      · exact none
      · obtain ⟨other, -, same⟩ := List.mem_map.1 later
        exact same.symm
    have counts := counting_of_chained chained (root_stage ▸ counting.filter_reduces) e.1.stage
      (List.mem_map_of_mem site)
    rw [none, empty]
    exact ⟨⟨counts, nofun, fun phase e mem => by cases phase <;> cases mem⟩, fun field linear => Nat.le_refl 0⟩
  refine ⟨_, ran, plan, rfl, stages, ⟨root, behindSites, ?_, rfl, ⟨{}, rfl⟩, ?_⟩, fun e mem => (stocked e mem).2⟩
  · exact {
      counting
      root := congrArg some root_stage
      chained
      placed
      length := congrArg (· + 1) (List.length_map _)
      stocked := fun e mem => (stocked e mem).1
      sorted := fun id => by rw [empty]; exact SortedMap.sorted_empty
      civil := plan ▸ civil }
  · rw [empty]
    exact linked_of_empty empty chained

theorem light_of_openAt {verbs : List Verb} (apart : ColumnsApart verbs) {config : Config}
    (valid : config.validate = .ok ()) {plan : FaultPlan} (opens : plan.Opens) (civil : plan.Civil) {t : Session}
    (ran : (openAt Store.root (Pipeline.ofVerbs verbs) config : Action Error Unit Ingestor).run ()
      { plan := plan } = (.ok t.1, (), t.2)) {ops : List Op}
    (short : 7 ^ ((Pipeline.ofVerbs verbs).stages.length * (ops.length + 1)) * (2 * (ops.length + 1)) < 2 ^ 53) :
    ∀ done, done <+: ops → (t.after done).Light := by
  obtain ⟨t', ran', -, -, stages, ⟨root, behindSites, level⟩, fits⟩ := level_of_openAt apart valid opens civil
  obtain rfl : t = t' := session_unique ran ran'
  refine level.steady.light_of_length fits ?_
  rw [Nat.zero_add, ← List.length_map Site.stage, stages]
  exact short

/-- The plan of a store that rejects one call, if it is of a kind. -/
def rejectOnce (n : Nat) (scope : ScopeId) (kind : CallKind) (key? : Option Key) : FaultPlan := fun m call =>
  if m = n ∧ call.scope = scope ∧ call.kind = kind ∧ call.key? = key? then
    some (.error (.reported .internal .store "rejected"))
  else none

section RejectOnce

variable {n : Nat} {scope : ScopeId} {kind : CallKind} {key? : Option Key}

theorem of_rejectOnce {m : Nat} {call : Call} {f : Failure Error}
    (failing : rejectOnce n scope kind key? m call = some f) :
    call.scope = scope ∧ call.kind = kind ∧ call.key? = key? ∧ ∃ e, f = .error e := by
  rw [rejectOnce] at failing
  split at failing
  · next here => exact ⟨here.2.1, here.2.2.1, here.2.2.2, _, (Option.some.inj failing).symm⟩
  · cases failing

theorem rejectOnce_mild (access : kind = .get ∨ kind = .set) : (rejectOnce n scope kind key?).Mild := by
  intro m call f failing
  obtain ⟨-, rfl, -, error⟩ := of_rejectOnce failing
  exact ⟨access, error⟩

theorem rejectOnce_sparesKey {other : ScopeId} {key : Key} (apart : some key ≠ key?) :
    (rejectOnce n scope kind key?).SparesKey other key := by
  have spared : ∀ which f, ¬ (rejectOnce n scope kind key?).FailsAt other which (some key) f := by
    rintro which f ⟨m, depth, failing⟩
    exact apart (of_rejectOnce failing).2.2.1
  exact fun f => ⟨spared .get f, spared .set f⟩

theorem rejectOnce_flushOnly : (rejectOnce n Store.root .commit key?).FlushOnly := by
  intro m call f failing
  obtain ⟨root, commit, -, error⟩ := of_rejectOnce failing
  exact ⟨root, commit, error⟩

end RejectOnce

/-! ## Swaps -/

/-- A chained bucket that is stored before any commit fails agrees with the stage before it.  Where no access
to its entry fails, it agrees again after every later commit that returns normally, whichever reads and writes
of other entries fail in between: of every bucket that was rewritten both the old contribution is gone and the
new one there. -/
theorem swaps_whole {verbs : List Verb} (apart : ColumnsApart verbs) {config : Config}
    (valid : config.validate = .ok ()) {plan : FaultPlan} (mild : plan.Mild) :
    ∃ t : Session, (openAt Store.root (Pipeline.ofVerbs verbs) config : Action Error Unit Ingestor).run ()
        { plan := plan } = (.ok t.1, (), t.2) ∧
      t.1.sites.map Site.stage = (Pipeline.ofVerbs verbs).stages ∧
      ∀ early late : List Op, (∀ done, done <+: early ++ .commit :: late → (t.after done).Light) →
        (t.after early).Commits → (t.after (early ++ .commit :: late)).Commits →
        ∀ parent child, [parent, child] <:+: t.1.sites →
          (config.autoCommitDisabled = true → t.Smooth early → ∀ key d,
            (t.after (early ++ [.commit])).2.store.get? child.scope key = some d →
              AgreesAt (t.after (early ++ [.commit])).2.store parent child key) ∧
          ∀ key, plan.SparesKey child.scope key → AgreesAt (t.after (early ++ [.commit])).2.store parent child key →
            AgreesAt (t.after (early ++ .commit :: late ++ [.commit])).2.store parent child key := by
  obtain ⟨t, ran, rfl, rfl, stages, ⟨root, behindSites, level⟩, -⟩ := level_of_openAt apart valid mild.opens mild.civil
  exact ⟨t, ran, stages, fun early late light first last parent child => level.agreesAt_after light first last⟩

/-- Two buckets are rewritten, and for the second the removal of its old contribution is rejected. -/
theorem swaps_whole_beside_rejected :
    let p := Pipeline.ofVerbs [.indexedBy "i", .brokenDownBy "a" "A"]
    let config : Config := { commitThreshold := 0, commitWorkers := 1 }
    let d : Document := ⟨[("a", .text "x"), ("i", .int 1)]⟩
    let e : Document := ⟨[("a", .text "y"), ("i", .int 1)]⟩
    let x : Key := ⟨[.text "x"]⟩
    let y : Key := ⟨[.text "y"]⟩
    let parent : Site := ⟨p.root, 0⟩
    let child : Site := ⟨⟨[.dropIndex], [.countDocuments, .brokenDownBy "a" "A"], .buckets true⟩, 1⟩
    let plan := rejectOnce 19 child.scope .set (some y)
    ∃ t : Session, (openAt Store.root p config : Action Error Unit Ingestor).run () { plan := plan } =
        (.ok t.1, (), t.2) ∧
      ¬ (t.after [.ingest d, .ingest e, .commit, .ingest d, .ingest e]).Commits ∧
      AgreesAt (t.after [.ingest d, .ingest e, .commit, .ingest d, .ingest e, .commit, .commit]).2.store
        parent child x := by
  intro p config d e x y parent child plan
  -- Call 19 writes the bucket under `y` behind the root, in the second commit.
  have traced : (Session.start? p config plan).map (fun t =>
      let first := t.after [.ingest d, .ingest e]
      let stored := t.after [.ingest d, .ingest e, .commit]
      let failing := t.after [.ingest d, .ingest e, .commit, .ingest d, .ingest e]
      let last := t.after [.ingest d, .ingest e, .commit, .ingest d, .ingest e, .commit]
      (t.1.sites, (Ingestor.commit.run first.1 first.2).1, (stored.2.store.get? child.scope x).isSome,
        (Ingestor.commit.run failing.1 failing.2).1, (Ingestor.commit.run last.1 last.2).1)) =
      some ([parent, child], .ok (), true, .error (.error (.reported .internal .store "rejected")), .ok ()) := by cbv
  have apart : ColumnsApart [.indexedBy "i", .brokenDownBy "a" "A"] := ⟨by decide, by decide⟩
  have mild : plan.Mild := rejectOnce_mild (.inr rfl)
  obtain ⟨t', opened, same⟩ := Option.map_eq_some_iff.1 traced
  obtain ⟨t, ran, -, whole⟩ := @swaps_whole _ apart config rfl _ mild
  obtain rfl : t = t' := session_unique ran (run_openAt_of_start? opened)
  simp only [Prod.mk.injEq] at same
  obtain ⟨sites, first, stored, failing, last⟩ := same
  obtain ⟨b, stored⟩ := Option.isSome_iff_exists.1 stored
  refine ⟨t, ran, fun well => ?_, ?_⟩
  · rw [Session.Commits, failing] at well
    cases well
  · obtain ⟨agrees, kept⟩ := whole [.ingest d, .ingest e] [.ingest d, .ingest e, .commit]
      (light_of_openAt apart rfl mild.opens mild.civil ran (by decide)) first last parent child (by rw [sites])
    exact kept x (rejectOnce_sparesKey (by decide)) (agrees rfl (Session.smooth_of_not_mem (by simp)) x b stored)

/-- One bucket is rewritten, and the removal of its old contribution is rejected.  The addition of the new
one waits for the next commit, so both contributions count. -/
theorem swap_split :
    let p := Pipeline.ofVerbs [.indexedBy "i"]
    let config : Config := { commitThreshold := 0 }
    let d : Document := ⟨[("i", .int 1)]⟩
    let parent : Site := ⟨p.root, 0⟩
    let child : Site := ⟨⟨[.dropIndex], [.countDocuments], .buckets true⟩, 1⟩
    let plan := rejectOnce 11 child.scope .set (some ⟨[]⟩)
    ColumnsApart [.indexedBy "i"] ∧ plan.Mild ∧ (∀ n call f, plan n call = some f → call.scope = child.scope) ∧
      ∃ t : Session, (openAt Store.root p config : Action Error Unit Ingestor).run () { plan := plan } =
          (.ok t.1, (), t.2) ∧
        t.1.sites = [parent, child] ∧ (t.after [.ingest d, .commit, .ingest d, .commit]).Commits ∧
        let s := (t.after [.ingest d, .commit]).2.store
        let s' := (t.after [.ingest d, .commit, .ingest d, .commit, .commit]).2.store
        wholeSum (inputs s parent child ⟨[]⟩) Field.count = 1 ∧ wholeSum (inputs s' parent child ⟨[]⟩) Field.count = 2 ∧
          ∃ b, s'.get? child.scope ⟨[]⟩ = some b ∧ HasInt b Field.count 3 := by
  intro p config d parent child plan
  -- Call 11 writes the bucket behind the root for the second time.
  have traced : (Session.start? p config plan).map (fun t =>
      let stored := t.after [.ingest d, .commit]
      let last := t.after [.ingest d, .commit, .ingest d, .commit]
      let after := t.after [.ingest d, .commit, .ingest d, .commit, .commit]
      (t.1.sites, (Ingestor.commit.run last.1 last.2).1, wholeSum (inputs stored.2.store parent child ⟨[]⟩) Field.count,
        wholeSum (inputs after.2.store parent child ⟨[]⟩) Field.count,
        (after.2.store.get? 1 ⟨[]⟩).bind (·.get? Field.count))) =
      some ([parent, child], .ok (), 1, 2, some (.int 3)) := by cbv
  obtain ⟨t, opened, same⟩ := Option.map_eq_some_iff.1 traced
  simp only [Prod.mk.injEq] at same
  obtain ⟨sites, last, before, after, counted⟩ := same
  obtain ⟨b, found, has⟩ := Option.bind_eq_some_iff.1 counted
  exact ⟨⟨by decide, by decide⟩, rejectOnce_mild (.inr rfl), fun n call f failing => (of_rejectOnce failing).1, t,
    run_openAt_of_start? opened, sites, last, before, after, b, found, 3, has, by decide⟩

/-! ## Flushes -/

/-- A chained bucket that is stored before any commit fails agrees with the stage before it.  Where only
flushes of the root fail, it agrees again after every later commit that returns normally, whatever commits have
failed in between. -/
theorem flush_failures_recovered {verbs : List Verb} (apart : ColumnsApart verbs) {config : Config}
    (valid : config.validate = .ok ()) {plan : FaultPlan} (faults : plan.FlushOnly) :
    ∃ t : Session, (openAt Store.root (Pipeline.ofVerbs verbs) config : Action Error Unit Ingestor).run ()
        { plan := plan } = (.ok t.1, (), t.2) ∧
      t.1.sites.map Site.stage = (Pipeline.ofVerbs verbs).stages ∧
      ∀ early late : List Op, (∀ done, done <+: early ++ .commit :: late → (t.after done).Light) →
        (t.after early).Commits → (t.after (early ++ .commit :: late)).Commits →
        ∀ parent child, [parent, child] <:+: t.1.sites →
          (config.autoCommitDisabled = true → t.Smooth early → ∀ key d,
            (t.after (early ++ [.commit])).2.store.get? child.scope key = some d →
              AgreesAt (t.after (early ++ [.commit])).2.store parent child key) ∧
          ∀ key, AgreesAt (t.after (early ++ [.commit])).2.store parent child key →
            AgreesAt (t.after (early ++ .commit :: late ++ [.commit])).2.store parent child key := by
  obtain ⟨t, ran, same, rfl, stages, ⟨root, behindSites, level⟩, -⟩ :=
    level_of_openAt apart valid faults.opens faults.civil
  refine ⟨t, ran, stages, fun early late light first last parent child adjacent => ?_⟩
  obtain ⟨agrees, kept⟩ := level.agreesAt_after light first last adjacent
  exact ⟨agrees, fun key => kept key (same ▸ faults.sparesKey child.scope key)⟩

/-- A bucket is stored first; then a flush fails, and more is added before the next commit. -/
theorem flush_failures_recovered_stored_first :
    let p := Pipeline.ofVerbs [.indexedBy "i"]
    let config : Config := { commitThreshold := 0 }
    let d : Document := ⟨[("i", .int 1)]⟩
    let parent : Site := ⟨p.root, 0⟩
    let child : Site := ⟨⟨[.dropIndex], [.countDocuments], .buckets true⟩, 1⟩
    let plan := rejectOnce 9 Store.root .commit none
    ∃ t : Session, (openAt Store.root p config : Action Error Unit Ingestor).run () { plan := plan } =
        (.ok t.1, (), t.2) ∧
      ¬ (t.after [.ingest d, .commit, .ingest d]).Commits ∧
      AgreesAt (t.after [.ingest d, .commit, .ingest d, .commit, .ingest d, .commit]).2.store parent child ⟨[]⟩ := by
  intro p config d parent child plan
  -- Call 9 is the second flush of the root.
  have traced : (Session.start? p config plan).map (fun t =>
      let first := t.after [.ingest d]
      let stored := t.after [.ingest d, .commit]
      let failing := t.after [.ingest d, .commit, .ingest d]
      let last := t.after [.ingest d, .commit, .ingest d, .commit, .ingest d]
      (t.1.sites, (Ingestor.commit.run first.1 first.2).1, (stored.2.store.get? child.scope ⟨[]⟩).isSome,
        (Ingestor.commit.run failing.1 failing.2).1, (Ingestor.commit.run last.1 last.2).1)) =
      some ([parent, child], .ok (), true, .error (.error (.reported .internal .store "rejected")), .ok ()) := by cbv
  have apart : ColumnsApart [.indexedBy "i"] := ⟨by decide, by decide⟩
  have faults : plan.FlushOnly := rejectOnce_flushOnly
  obtain ⟨t', opened, same⟩ := Option.map_eq_some_iff.1 traced
  obtain ⟨t, ran, -, recovered⟩ := @flush_failures_recovered _ apart config rfl _ faults
  obtain rfl : t = t' := session_unique ran (run_openAt_of_start? opened)
  simp only [Prod.mk.injEq] at same
  obtain ⟨sites, first, stored, failing, last⟩ := same
  obtain ⟨b, stored⟩ := Option.isSome_iff_exists.1 stored
  refine ⟨t, ran, fun well => ?_, ?_⟩
  · rw [Session.Commits, failing] at well
    cases well
  · obtain ⟨agrees, kept⟩ := recovered [.ingest d] [.ingest d, .commit, .ingest d]
      (light_of_openAt apart rfl faults.opens faults.civil ran (by decide)) first last parent child (by rw [sites])
    exact kept ⟨[]⟩ (agrees rfl (Session.smooth_of_not_mem (by simp)) ⟨[]⟩ b stored)

/-- A flush fails before anything is stored behind the root, and more is added before the next commit.  Of
the bucket that the root has then replaced both the old and the new contribution count. -/
theorem flush_failure_counted_twice :
    let p := Pipeline.ofVerbs [.indexedBy "i"]
    let config : Config := { commitThreshold := 0 }
    let d : Document := ⟨[("i", .int 1)]⟩
    let parent : Site := ⟨p.root, 0⟩
    let child : Site := ⟨⟨[.dropIndex], [.countDocuments], .buckets true⟩, 1⟩
    let plan := rejectOnce 3 Store.root .commit none
    ColumnsApart [.indexedBy "i"] ∧ config.autoCommitDisabled = true ∧ plan.FlushOnly ∧
      ∃ t : Session, (openAt Store.root p config : Action Error Unit Ingestor).run () { plan := plan } =
          (.ok t.1, (), t.2) ∧
        t.1.sites = [parent, child] ∧ (t.after [.ingest d, .commit, .ingest d]).Commits ∧
        let s := (t.after [.ingest d, .commit, .ingest d, .commit]).2.store
        wholeSum (inputs s parent child ⟨[]⟩) Field.count = 2 ∧
          ∃ b, s.get? child.scope ⟨[]⟩ = some b ∧ HasInt b Field.count 3 := by
  intro p config d parent child plan
  -- Call 3 is the first flush of the root.
  have traced : (Session.start? p config plan).map (fun t =>
      let last := t.after [.ingest d, .commit, .ingest d]
      let after := t.after [.ingest d, .commit, .ingest d, .commit]
      (t.1.sites, (Ingestor.commit.run last.1 last.2).1, wholeSum (inputs after.2.store parent child ⟨[]⟩) Field.count,
        (after.2.store.get? 1 ⟨[]⟩).bind (·.get? Field.count))) =
      some ([parent, child], .ok (), 2, some (.int 3)) := by cbv
  obtain ⟨t, opened, same⟩ := Option.map_eq_some_iff.1 traced
  simp only [Prod.mk.injEq] at same
  obtain ⟨sites, last, total, counted⟩ := same
  obtain ⟨b, found, has⟩ := Option.bind_eq_some_iff.1 counted
  exact ⟨⟨by decide, by decide⟩, rfl, rejectOnce_flushOnly, t, run_openAt_of_start? opened, sites, last, total, b,
    found, 3, has, by decide⟩

end Ingestor

end Rollup
