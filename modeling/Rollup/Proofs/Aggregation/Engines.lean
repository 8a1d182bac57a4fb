import Rollup.Proofs.Aggregation.Calls

/-!
# Engines

All aggregations of an engine live in one store.  They may be opened under any names, also several
under one, and called in any order: every one of them stays `Resident` (`Engine.Sound.acts`), also when
another one has been reset in its place and its scopes are no longer found.  What one deed comes to is said
once (`Engine.Effect`); what holds of all runs follows by induction on the deeds (`Sound.acts_induction`).
-/

namespace Rollup

open Ingest

/-! ## Opening under any name -/

namespace Aggregation

open Ingestor Session

/-- An aggregation stays where it is while no old scope is moved. -/
theorem Housed.kept {a : Aggregation} {s s' : Store} (housed : Housed a s) (kept : s.Kept s') : Housed a s' where
  sites := housed.sites
  placed := housed.placed.of_length_le kept.length
  unlogged site mem hangs := housed.unlogged site mem (kept.place _ (housed.placed.open_ site mem) _ hangs)

/-- Under a name that may be taken, an ingestor is opened in scopes of its own, of which some may have been
there. -/
theorem run_openIngestor_resident {σ : Type} {config : Config} (valid : config.validate = .ok ())
    (chained : config.chainStore ≠ logName) (name : String) (pipeline : Pipeline) (l : σ) {w : World}
    (never : w.plan = .never) (tree : w.store.Tree) :
    ∃ i w', (openIngestor config name pipeline).run l w = (.ok i, l, w') ∧
      Resident config ({ name, pipeline, ingestor := i }, w') ∧ w.store.Widened w'.store := by
  obtain ⟨i, w', ran, launched⟩ := run_openIngestor_launched valid name pipeline l
    (never ▸ FaultPlan.never_rootOnly.mild.opens) tree
  refine ⟨i, w', ran, ?_, (w.store.widened_openChild Store.root (.named name)).trans launched.widened⟩
  refine ⟨launched.plan.trans never, launched.tree, ⟨launched.sites_ne_nil, launched.placed, fun site mem hangs => ?_⟩,
    launched.config⟩
  change _ = some (i.rootScope, _) at hangs
  rcases launched.root_or_chained mem with top | behind
  · -- A scope does not hang below itself.
    exact Nat.lt_irrefl _ (top ▸ launched.tree.nested _ _ _ hangs)
  · obtain ⟨above, hangs'⟩ := launched.descends.place site behind
    rw [hangs'] at hangs
    exact chained (by simpa [Key.named] using congrArg (Option.map Prod.snd) hangs)

/-- Under a name that may be taken, an aggregation is opened in scopes of its own, of which some may have
been there. -/
theorem run_openNamed_resident {σ : Type} {config : Config} (valid : config.validate = .ok ())
    (chained : config.chainStore ≠ logName) (name : String) {q : Query} {pipeline : Pipeline}
    (compiled : q.compile = .ok pipeline) (l : σ) {w : World} (never : w.plan = .never) (tree : w.store.Tree) :
    ∃ i w', (openNamed config name q).run l w = (.ok { name, pipeline, ingestor := i }, l, w') ∧
      Resident config ({ name, pipeline, ingestor := i }, w') ∧ w.store.Widened w'.store := by
  obtain ⟨i, w', ran, resident, widened⟩ := run_openIngestor_resident valid chained name pipeline l never tree
  exact ⟨i, w', run_openNamed_of_openIngestor valid chained compiled ran, resident, widened⟩

/-- What cannot be opened changes nothing. -/
theorem run_openNamed_refused {σ : Type} {config : Config} (name : String) {q : Query}
    (refused : config.validate = .ok () → config.chainStore ≠ logName → ∀ p, q.compile ≠ .ok p) (l : σ) (w : World) :
    ∃ f, (openNamed config name q).run l w = (.error f, l, w) := by
  cases valid : config.validate with
  | error e =>
    refine ⟨.error (.ofConfigError e), ?_⟩
    rw [openNamed, valid]
    rfl
  | ok x =>
    by_cases chained : config.chainStore = logName
    · refine ⟨.error ⟨.config, .config, "chain_store must not be '" ++ logName ++ "'"⟩, ?_⟩
      rw [openNamed, valid, checkChainStore, if_pos chained]
      rfl
    · cases compiled : q.compile with
      | error e =>
        refine ⟨.error (.ofQueryError e), ?_⟩
        rw [openNamed, valid, checkChainStore, if_neg chained]
        simp only [compiled]
        rfl
      | ok p => exact absurd compiled (refused valid chained p)

/-- What is opened gets scopes of its own, of which some may have been there, or nothing changes. -/
theorem run_openNamed_cases {σ : Type} (config : Config) (name : String) (q : Query) (l : σ) {w : World}
    (never : w.plan = .never) (tree : w.store.Tree) :
    (∃ p i w', config.validate = .ok () ∧ config.chainStore ≠ logName ∧ q.compile = .ok p ∧
      (openNamed config name q).run l w = (.ok { name, pipeline := p, ingestor := i }, l, w') ∧
      Resident config ({ name, pipeline := p, ingestor := i }, w') ∧ w.store.Widened w'.store) ∨
    ∃ f, (openNamed config name q).run l w = (.error f, l, w) := by
  by_cases opens : ∃ p, config.validate = .ok () ∧ config.chainStore ≠ logName ∧ q.compile = .ok p
  · obtain ⟨p, valid, chained, compiled⟩ := opens
    obtain ⟨i, w', ran, resident, widened⟩ := run_openNamed_resident valid chained name compiled l never tree
    exact .inl ⟨p, i, w', valid, chained, compiled, ran, resident, widened⟩
  · exact .inr (run_openNamed_refused name
      (fun valid chained p compiled => opens ⟨p, valid, chained, compiled⟩) l w)

/-- No call moves an old scope. -/
theorem kept_of_does {config : Config} {t t' : Session} {c : Call} {r : Except (Failure Report) Reply}
    (does : Does config t c r t') : t.2.store.Kept t'.2.store := by
  have opens : t.2.store.Kept t.withLog := (t.2.store.widened_openChild _ _).kept
  cases does with
  | works plain worked => exact .of_places worked.frame.tree.places
  | recorded never appended store worked =>
    obtain ⟨places, -⟩ := Store.append?_kept appended
    exact opens.trans (.of_places (worked.frame.tree.places.trans (store ▸ places)))
  | exhausted never none store => exact store ▸ opens
  | @dropped m d w w' t₁ never found store worked never' store' =>
    have places := store' ▸ (t₁.2.store.sameTree_set t.log (.numbered m) none).places
    exact opens.trans (.of_places (places.trans (worked.frame.tree.places.trans (store ▸ rfl))))
  | missing never none store => exact store ▸ opens
  | replayed never store worked => exact opens.trans (.of_places (worked.frame.tree.places.trans (store ▸ rfl)))
  | reset opened => exact (t.2.store.kept_deleteChild _ _).trans opened.widened.kept

end Aggregation

/-! ## Engines -/

open Aggregation

/-- A configuration and a world, with the aggregations that were opened so far and their queries. -/
structure Engine where
  config : Config := {}
  world : World := {}
  opened : List (Query × Aggregation) := []

/-- What a caller does to an engine. -/
inductive Deed
  /-- Opens an aggregation. -/
  | opens (name : String) (q : Query)
  /-- Makes a call on an aggregation that was opened. -/
  | calls (i : Nat) (c : Aggregation.Call)

namespace Engine

/-- An engine after a deed, whatever came of it. -/
def act (e : Engine) : Deed → Engine
  | .opens name q =>
    match (openNamed e.config name q : Action Report Unit Aggregation).run () e.world with
    | (.ok a, _, w) => { e with world := w, opened := e.opened ++ [(q, a)] }
    | (.error _, _, w) => { e with world := w }
  | .calls i c =>
    match e.opened[i]? with
    | none => e
    | some (q, a) =>
      let t := Session.call (a, e.world) c
      { e with world := t.2, opened := e.opened.set i (q, t.1) }

/-- An engine after deeds. -/
def acts (e : Engine) (ds : List Deed) : Engine := ds.foldl act e

theorem config_acts (e : Engine) (ds : List Deed) : (e.acts ds).config = e.config := by
  induction ds generalizing e with
  | nil => rfl
  | cons d rest ih =>
    refine (ih (e.act d)).trans ?_
    cases d with
    | opens name q =>
      rw [act]
      split <;> rfl
    | calls i c =>
      rw [act]
      split <;> rfl

/-- Every aggregation lives in a store that no access fails. -/
structure Sound (e : Engine) : Prop where
  never : e.world.plan = .never
  tree : e.world.store.Tree
  resident : ∀ qa ∈ e.opened, e.config.validate = .ok () ∧ e.config.chainStore ≠ logName ∧
    qa.1.compile = .ok qa.2.pipeline ∧ Resident e.config (qa.2, e.world)

/-- An aggregation that was opened lives in the world of its engine. -/
theorem Sound.session {e : Engine} (sound : e.Sound) {i : Nat} {q : Query} {a : Aggregation}
    (opened : e.opened[i]? = some (q, a)) : e.config.validate = .ok () ∧ e.config.chainStore ≠ logName ∧
      q.compile = .ok a.pipeline ∧ Resident e.config (a, e.world) :=
  sound.resident (q, a) (List.mem_of_getElem? opened)

/-- What a deed makes of an engine whose store no access fails. -/
inductive Effect (e : Engine) : Deed → Engine → Prop
  | opened {name : String} {q : Query} {p : Pipeline} {i : Ingestor} {w : World} (valid : e.config.validate = .ok ())
      (chained : e.config.chainStore ≠ logName) (compiled : q.compile = .ok p)
      (ran : (openNamed e.config name q : Action Report Unit Aggregation).run () e.world =
        (.ok { name, pipeline := p, ingestor := i }, (), w))
      (resident : Resident e.config ({ name, pipeline := p, ingestor := i }, w))
      (widened : e.world.store.Widened w.store) :
      Effect e (.opens name q) { e with
        world := w, opened := e.opened ++ [(q, { name, pipeline := p, ingestor := i })] }
  | refused {name : String} {q : Query} : Effect e (.opens name q) e
  | called {i : Nat} {c : Aggregation.Call} {q : Query} {a : Aggregation} (found : e.opened[i]? = some (q, a))
      (valid : e.config.validate = .ok ()) (chained : e.config.chainStore ≠ logName)
      (compiled : q.compile = .ok a.pipeline) (resident : Resident e.config (a, e.world)) :
      Effect e (.calls i c) { e with
        world := (Session.call (a, e.world) c).2, opened := e.opened.set i (q, (Session.call (a, e.world) c).1) }
  | absent {i : Nat} {c : Aggregation.Call} (none : e.opened[i]? = none) : Effect e (.calls i c) e

theorem Sound.effect {e : Engine} (sound : e.Sound) (d : Deed) : e.Effect d (e.act d) := by
  cases d with
  | opens name q =>
    rcases run_openNamed_cases e.config name q () sound.never sound.tree with
      ⟨p, i, w, valid, chained, compiled, ran, resident, widened⟩ | ⟨f, ran⟩
    · rw [Engine.act, ran]
      exact .opened valid chained compiled ran resident widened
    · rw [Engine.act, ran]
      exact .refused
  | calls i c =>
    rw [Engine.act]
    cases found : e.opened[i]? with
    | none => exact .absent found
    | some qa =>
      obtain ⟨valid, chained, compiled, resident⟩ := sound.session found
      exact .called found valid chained compiled resident

/-- Every deed keeps an engine sound. -/
theorem Sound.act {e : Engine} (sound : e.Sound) (d : Deed) : (e.act d).Sound := by
  have effect := sound.effect d
  generalize e.act d = e' at effect ⊢
  cases effect with
  | @opened name q p i w valid chained compiled _ resident widened =>
    refine ⟨resident.never, resident.tree, fun qa mem => ?_⟩
    rcases List.mem_append.1 mem with old | last
    · obtain ⟨-, -, compiled', resident'⟩ := sound.resident qa old
      exact ⟨valid, chained, compiled', resident.never, resident.tree, resident'.housed.kept widened.kept,
        resident'.config⟩
    · rw [List.mem_singleton.1 last]
      exact ⟨valid, chained, compiled, resident⟩
  | @called i c q a _ valid chained compiled resident =>
    have done := does valid chained resident c
    obtain ⟨resident', -, pipeline⟩ := resident.of_does done
    have kept : e.world.store.Kept (Session.call (a, e.world) c).2.store := kept_of_does done
    refine ⟨resident'.never, resident'.tree, fun qb mem => ⟨valid, chained, ?_⟩⟩
    rcases List.mem_or_eq_of_mem_set mem with other | rfl
    · obtain ⟨-, -, compiled', housed⟩ := sound.resident qb other
      exact ⟨compiled', resident'.never, resident'.tree, housed.housed.kept kept, housed.config⟩
    · exact ⟨pipeline ▸ compiled, resident'⟩
  | refused | absent => exact sound

/-- What every deed on a sound engine preserves holds after all of them. -/
theorem Sound.acts_induction {e : Engine} (sound : e.Sound) {ds : List Deed} {p : Engine → Prop} (start : p e)
    (step : ∀ e d, d ∈ ds → e.Sound → p e → p (e.act d)) : (e.acts ds).Sound ∧ p (e.acts ds) := by
  induction ds generalizing e with
  | nil => exact ⟨sound, start⟩
  | cons d rest ih =>
    exact ih (sound.act d) (step e d List.mem_cons_self sound start) fun e d mem =>
      step e d (List.mem_cons_of_mem _ mem)

/-- Every engine is sound. -/
theorem Sound.acts {e : Engine} (sound : e.Sound) (ds : List Deed) : (e.acts ds).Sound :=
  (sound.acts_induction (p := fun _ => True) trivial fun _ _ _ _ _ => trivial).1

theorem sound_fresh (config : Config) : Sound { config } where
  never := rfl
  tree := Store.tree_fresh
  resident _ mem := absurd mem List.not_mem_nil

end Engine

end Rollup
