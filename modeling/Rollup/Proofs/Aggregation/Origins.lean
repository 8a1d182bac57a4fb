import Rollup.Proofs.Aggregation.Failures
import Rollup.Proofs.Aggregation.Homes
import Rollup.Proofs.Ingest.Origins

/-!
# What is stored below a name

The scope below the name of an aggregation is the root scope of all aggregations that were opened under that
name, and of no other: no chained stage and no log lives there (`Berthed`, `Apart`).  So where all of them
have one query, all that waits for their roots and all that is stored there is made of events by the root of
one pipeline, whatever is done to an engine (`Engine.roots_acts`).
-/

namespace Rollup

open Ingest

namespace Action

variable {ε σ α : Type} {P P' : σ → Store → Prop} {Q : α → Prop} {act : Action ε σ α}

theorem Yields.and (yields : act.Yields P Q) (keeps : act.Keeps P') : act.Yields (fun l s => P l s ∧ P' l s) Q :=
  fun l w holds => ⟨⟨(yields l w holds.1).1, (keeps l w holds.2).1⟩, (yields l w holds.1).2⟩

end Action

namespace Aggregation

open Ingestor Session

/-! ## Calls on one aggregation -/

section Calls

variable {ε : Type} {config : Config} {p : Pipeline} {root : Site} {behindSites : List Site}

theorem yields_onIngestor {α : Type} {act : Action ε Ingestor α} {P : Ingestor → Store → Prop} {Q : α → Prop}
    (yields : act.Yields P Q) : (onIngestor act).Yields (fun a s => P a.ingestor s) Q :=
  fun a w holds => yields a.ingestor w holds

/-- An aggregation lives in scopes of its own, and its root is traced. -/
abbrev Rooted (config : Config) (p : Pipeline) (root : Site) (behindSites : List Site) (a : Aggregation)
    (s : Store) : Prop :=
  Lodged config a s ∧ RootTraced p root behindSites a.ingestor s

theorem yields_openLog : openLog.Yields (Rooted config p root behindSites) (· ≠ root.scope) := by
  rintro a w ⟨lodged, traced⟩
  have own : a.ingestor.rootScope = root.scope := by
    rw [rootScope, traced.sites]
    rfl
  have apart : Session.log (a, w) ≠ root.scope := by
    intro same
    refine lodged.housed.log_not_mem ?_
    rw [Session.log] at same
    rw [same, ← own]
    exact lodged.housed.rootScope_mem
  rcases run_openLog_cases a w with ⟨f, ran⟩ | ran <;> rw [ran]
  · exact ⟨⟨lodged, traced⟩, fun _ same => by cases same⟩
  · refine ⟨⟨Lodged.withLog (t := (a, w)) lodged, traced.of_buckets fun key d found => ?_⟩,
      fun _ same => by cases same; exact apart⟩
    rw [Session.withLog, w.store.buckets_openChild] at found
    exact traced.stores found

theorem keeps_perform_rooted (own : root.stage = p.root) (apart : root.scope ∉ behindSites.map Site.scope) {c : Call}
    (stays : c ≠ .reset) : (perform c).Keeps (Rooted config p root behindSites) := by
  refine keeps_perform_of (fun which doc => ?_) ?_ yields_openLog (fun log away doc => ?_) (fun log away key => ?_) c
    fun reset => absurd reset stays
  · exact (keeps_push which doc).and (yields_onIngestor (keeps_push_root own apart which doc))
  · exact Action.Yields.and keeps_commit ((yields_onIngestor (keeps_commit_root own apart)).mapError _)
  · refine (keeps_append log doc).and (.of_run fun a w traced => ?_)
    rcases run_append_cases log doc a w with ⟨f, ran⟩ | ⟨m, s', appended, ran⟩ <;> rw [ran]
    · exact traced
    · refine traced.of_buckets fun key d found => ?_
      rw [Store.buckets, Store.scope_append?_of_ne appended away.symm] at found
      exact traced.stores found
  · refine (keeps_set log key none).and (.of_run fun a w traced => ?_)
    obtain ⟨w', -, ⟨f, -, store, ran⟩ | ⟨-, store, ran⟩⟩ := run_set log key none a w <;> rw [ran, store]
    · exact traced
    · refine traced.of_buckets fun key' d found => ?_
      rw [w.store.buckets_set_of_ne away.symm] at found
      exact traced.stores found

/-- A call that is no reset writes in the scopes of the aggregation and in its log only. -/
theorem buckets_of_does {t t' : Session} {c : Call} {r : Except (Failure Report) Reply} (does : Does config t c r t')
    (stays : c ≠ .reset) {id : ScopeId} (foreign : id ∉ t.1.ingestor.sites.map Site.scope) (unlogged : id ≠ t.log) :
    t'.2.store.buckets id = t.2.store.buckets id := by
  have opens {w : World} (store : w.store = t.withLog) : w.store.buckets id = t.2.store.buckets id := by
    rw [store, Session.withLog, t.2.store.buckets_openChild]
  have works {w : World} {u : Session} (worked : Worked (t.1, w) u) : u.2.store.buckets id = w.store.buckets id :=
    worked.frame.buckets id foreign
  cases does with
  | works plain worked => exact works worked
  | @recorded d m s' w t' never appended store worked =>
    rw [works worked, store, Store.buckets, Store.scope_append?_of_ne appended unlogged]
    exact opens (w := { w with store := t.withLog }) rfl
  | exhausted never none store => exact opens store
  | @dropped m d w w' t₁ never found store worked never' store' =>
    rw [store', t₁.2.store.buckets_set_of_ne unlogged, works worked, opens store]
  | missing never none store => exact opens store
  | replayed never store worked => rw [works worked, opens store]
  | reset opened => exact absurd rfl stays

/-- Such a call makes no scope but the log. -/
theorem places_of_does {t t' : Session} {c : Call} {r : Except (Failure Report) Reply} (does : Does config t c r t')
    (stays : c ≠ .reset) : t'.2.store.places = t.2.store.places ∨ t'.2.store.places = t.withLog.places := by
  cases does with
  | works plain worked => exact .inl worked.frame.tree.places
  | recorded never appended store worked =>
    exact .inr (worked.frame.tree.places.trans (store ▸ (Store.append?_kept appended).1))
  | exhausted never none store => exact .inr (store ▸ rfl)
  | @dropped m d w w' t₁ never found store worked never' store' =>
    have drops := (t₁.2.store.sameTree_set t.log (.numbered m) none).places
    exact .inr ((store' ▸ drops).trans (worked.frame.tree.places.trans (store ▸ rfl)))
  | missing never none store => exact .inr (store ▸ rfl)
  | replayed never store worked => exact .inr (worked.frame.tree.places.trans (store ▸ rfl))
  | reset opened => exact absurd rfl stays

end Calls

/-! ## Root scopes -/

/-- The root scope of an aggregation hangs below its name, if anywhere, and none of a chained stage hangs below
the root of the store. -/
structure Berthed (s : Store) (a : Aggregation) : Prop where
  housed : Housed a s
  ne_root : a.ingestor.rootScope ≠ Store.root
  top : ∀ place, (s.scope a.ingestor.rootScope).place = some place → place = (Store.root, .named a.name)
  chain : ∀ site ∈ a.ingestor.sites.tail, ∀ place, (s.scope site.scope).place = some place → place.1 ≠ Store.root

/-- The root scope of an aggregation is none of a chained stage of another one, and one name shares it. -/
structure Apart (a b : Aggregation) : Prop where
  chain : a.ingestor.rootScope ∉ b.ingestor.sites.tail.map Site.scope
  name : a.ingestor.rootScope = b.ingestor.rootScope → a.name = b.name

section Berths

variable {s s' : Store} {a b : Aggregation}

theorem Housed.sites_eq (housed : Housed a s) : ∃ root behindSites, a.ingestor.sites = root :: behindSites ∧
    root.scope = a.ingestor.rootScope ∧ root.scope ∉ behindSites.map Site.scope := by
  obtain ⟨root, behindSites, sites⟩ := List.exists_cons_of_ne_nil housed.sites
  refine ⟨root, behindSites, sites, by rw [rootScope, sites]; rfl, ?_⟩
  have nodup := housed.placed.nodup
  rw [sites] at nodup
  exact (List.nodup_cons.1 nodup).1

theorem Berthed.kept (berthed : Berthed s a) (kept : s.Kept s') : Berthed s' a where
  housed := berthed.housed.kept kept
  ne_root := berthed.ne_root
  top place hangs := berthed.top place (kept.place _ berthed.housed.rootScope_lt place hangs)
  chain site mem place hangs :=
    berthed.chain site mem place (kept.place _ (berthed.housed.placed.open_ site (List.mem_of_mem_tail mem)) place hangs)

/-- The scopes of the chained stages of an aggregation at home hang below scopes of its territory. -/
theorem Homed.chain (homed : Homed s a) (housed : Housed a s) (tree : s.Tree) :
    ∀ site ∈ a.ingestor.sites.tail, ∃ place, (s.scope site.scope).place = some place ∧ place.1 ≠ Store.root := by
  obtain ⟨root, behindSites, sites, own, apart⟩ := housed.sites_eq
  intro site mem
  rw [sites, List.tail_cons] at mem
  have within := homed.sites site (by rw [sites]; exact List.mem_cons_of_mem _ mem)
  rw [← own] at within
  generalize at_ : site.scope = id at within ⊢
  cases within with
  | self => exact absurd (List.mem_map.2 ⟨site, mem, at_⟩) apart
  | @under _ above key place inside =>
    refine ⟨_, place, fun top => ?_⟩
    have behind := inside.le tree.nested
    rw [show above = Store.root from top, own] at behind
    have below := tree.nested _ _ _ (Store.place_of_child? homed.root).2
    exact absurd behind (Nat.not_le_of_lt below)

theorem Homed.berthed (homed : Homed s a) (housed : Housed a s) (tree : s.Tree) : Berthed s a where
  housed := housed
  ne_root same := by
    have below := tree.nested _ _ _ (Store.place_of_child? homed.root).2
    exact absurd same (Nat.ne_of_gt below)
  top place hangs := Option.some.inj (hangs.symm.trans (Store.place_of_child? homed.root).2)
  chain site mem place hangs := by
    obtain ⟨place', hangs', apart⟩ := homed.chain housed tree site mem
    rwa [Option.some.inj (hangs.symm.trans hangs')]

theorem Berthed.apart_self (berthed : Berthed s a) : Apart a a := by
  obtain ⟨root, behindSites, sites, own, apart⟩ := berthed.housed.sites_eq
  refine ⟨?_, fun _ => rfl⟩
  rw [← own, sites]
  exact apart

/-- An aggregation at home is apart from all others. -/
theorem Homed.apart (homed : Homed s a) (housed : Housed a s) (tree : s.Tree) (berthed : Berthed s b) :
    Apart a b ∧ Apart b a := by
  have hangs := (Store.place_of_child? homed.root).2
  refine ⟨⟨fun mem => ?_, fun same => ?_⟩, ⟨fun mem => ?_, fun same => ?_⟩⟩
  · obtain ⟨site, listed, own⟩ := List.mem_map.1 mem
    exact berthed.chain site listed _ (own ▸ hangs) rfl
  · have place := (Prod.mk.inj (berthed.top _ (same ▸ hangs))).2
    simpa [Key.named] using place
  · obtain ⟨site, listed, own⟩ := List.mem_map.1 mem
    obtain ⟨place, hangs', apart⟩ := homed.chain housed tree site listed
    exact apart (congrArg Prod.fst (berthed.top place (own ▸ hangs')))
  · have place := (Prod.mk.inj (berthed.top _ (same ▸ hangs))).2
    simpa [Key.named] using place.symm

end Berths

/-! ## All aggregations of a name -/

/-- All that is stored in a scope is made of events by the root of a pipeline. -/
def OfEvents (p : Pipeline) (s : Store) (id : ScopeId) : Prop :=
  ∀ key d, (s.buckets id).get? key = some d → p.root.Stores (p.Emits 0) key d

/-- The aggregations of a name have one pipeline, and what waits for their roots and what is stored below the
name is made of events by the root of it. -/
structure Roots (name : String) (p : Pipeline) (as : List Aggregation) (s : Store) : Prop where
  berthed : ∀ a ∈ as, Berthed s a
  apart : ∀ a ∈ as, ∀ b ∈ as, Apart a b
  placed : ∀ id, (s.scope id).place = some (Store.root, .named name) → OfEvents p s id
  pipeline : ∀ a ∈ as, a.name = name → a.pipeline = p
  traced : ∀ a ∈ as, a.name = name → ∃ root behindSites, root.stage = p.root ∧
    RootTraced p root behindSites a.ingestor s

namespace Roots

variable {name : String} {p : Pipeline} {as bs : List Aggregation} {s s' : Store} {a : Aggregation}

theorem fresh : Roots name p [] {} where
  berthed _ mem := absurd mem List.not_mem_nil
  apart _ mem := absurd mem List.not_mem_nil
  placed id _ key d found := by
    rw [Store.buckets_fresh] at found
    cases found
  pipeline _ mem := absurd mem List.not_mem_nil
  traced _ mem := absurd mem List.not_mem_nil

theorem of_empty {id : ScopeId} (empty : s.buckets id = .empty) : OfEvents p s id := by
  intro key d found
  rw [empty] at found
  cases found

theorem ofEvents (roots : Roots name p as s) (mem : a ∈ as) (named : a.name = name) :
    OfEvents p s a.ingestor.rootScope := by
  obtain ⟨root, behindSites, own, traced⟩ := roots.traced a mem named
  have here : a.ingestor.rootScope = root.scope := by
    rw [rootScope, traced.sites]
    rfl
  intro key d found
  rw [here] at found
  exact own ▸ traced.stores found

theorem mono (roots : Roots name p as s) (fewer : bs ⊆ as) : Roots name p bs s where
  berthed a mem := roots.berthed a (fewer mem)
  apart a mem b mem' := roots.apart a (fewer mem) b (fewer mem')
  placed := roots.placed
  pipeline a mem := roots.pipeline a (fewer mem)
  traced a mem := roots.traced a (fewer mem)

theorem cons (roots : Roots name p as s) (berthed : Berthed s a) (apart : ∀ b ∈ as, Apart a b ∧ Apart b a)
    (pipeline : a.name = name → a.pipeline = p)
    (traced : a.name = name → ∃ root behindSites, root.stage = p.root ∧ RootTraced p root behindSites a.ingestor s) :
    Roots name p (a :: as) s where
  berthed b mem := by
    rcases List.mem_cons.1 mem with rfl | mem
    · exact berthed
    · exact roots.berthed b mem
  apart b mem c mem' := by
    rcases List.mem_cons.1 mem with rfl | old <;> rcases List.mem_cons.1 mem' with rfl | old'
    · exact berthed.apart_self
    · exact (apart c old').1
    · exact (apart b old).2
    · exact roots.apart b old c old'
  placed := roots.placed
  pipeline b mem := by
    rcases List.mem_cons.1 mem with rfl | mem
    · exact pipeline
    · exact roots.pipeline b mem
  traced b mem := by
    rcases List.mem_cons.1 mem with rfl | mem
    · exact traced
    · exact roots.traced b mem

/-- What leaves the entries below a name made of events keeps them traced. -/
theorem of_kept (roots : Roots name p as s) (kept : s.Kept s')
    (stores : ∀ id, (s'.scope id).place = some (Store.root, .named name) ∨
      (∃ a ∈ as, a.name = name ∧ a.ingestor.rootScope = id) → OfEvents p s id → OfEvents p s' id) :
    Roots name p as s' where
  berthed a mem := (roots.berthed a mem).kept kept
  apart := roots.apart
  placed id hangs := by
    refine stores id (.inl hangs) ?_
    rcases Nat.lt_or_ge id s.scopes.length with here | beyond
    · exact roots.placed id (kept.place id here _ hangs)
    · exact of_empty (by rw [Store.buckets, s.scope_of_length_le beyond])
  pipeline := roots.pipeline
  traced a mem named := by
    obtain ⟨root, behindSites, own, traced⟩ := roots.traced a mem named
    have here : a.ingestor.rootScope = root.scope := by
      rw [rootScope, traced.sites]
      rfl
    have after := stores _ (.inr ⟨a, mem, named, rfl⟩) (roots.ofEvents mem named)
    refine ⟨root, behindSites, own, traced.of_buckets fun key d found => ?_⟩
    rw [own]
    exact after key d (here ▸ found)

/-- What changes no entries or drops all of a scope keeps them traced. -/
theorem of_same (roots : Roots name p as s) (kept : s.Kept s')
    (same : ∀ id, s'.buckets id = s.buckets id ∨ s'.buckets id = .empty) : Roots name p as s' := by
  refine roots.of_kept kept fun id _ before => ?_
  rcases same id with same | empty
  · rwa [OfEvents, same]
  · exact of_empty empty

theorem deletes (roots : Roots name p as s) (other : Key) : Roots name p as (s.deleteChild Store.root other) := by
  refine roots.of_same (s.kept_deleteChild _ _) fun id => ?_
  rw [Store.deleteChild]
  cases s.child? Store.root other with
  | none => exact .inl rfl
  | some child =>
    rw [Store.buckets, Store.scope_eraseTree]
    split
    · exact .inr rfl
    · exact .inl rfl

/-- A new aggregation joins the others. -/
theorem opens {σ : Type} {config : Config} {other : String} {pipeline : Pipeline} {l l' : σ} {w w' : World}
    {i : Ingestor} (roots : Roots name p as w.store) (never : w.plan = .never) (tree : w.store.Tree)
    (ran : (openIngestor config other pipeline).run l w = (.ok i, l', w'))
    (housed : Housed { name := other, pipeline, ingestor := i } w'.store) (tree' : w'.store.Tree)
    (widened : w.store.Widened w'.store) (alike : other = name → pipeline = p) :
    Roots name p ({ name := other, pipeline, ingestor := i } :: as) w'.store := by
  have roots' := roots.of_same widened.kept fun id => .inl (widened.buckets_eq id)
  have homed := homed_of_openIngestor never tree ran
  refine roots'.cons (homed.berthed housed tree') (fun b mem => homed.apart housed tree' (roots'.berthed b mem)) alike ?_
  -- Under the name itself the root scope may have been there, with what other aggregations stored in it.
  rintro rfl
  have launched := Launched.of_run never tree ran
  have stages := launched.stages
  obtain ⟨root, behindSites, sites, own, -⟩ := housed.sites_eq
  change i.sites = _ at sites
  rw [sites, alike rfl] at stages
  have first : root.stage = p.root := (List.cons.inj stages).1
  refine ⟨root, behindSites, first, sites, ?_, fun n site key d at_ found => ?_⟩
  · show Fed p.EmitsRoot 0 i.queues
    rw [launched.queues]
    exact fed_idle 0 _
  · match n with
    | 0 =>
      obtain rfl : root = site := Option.some.inj at_
      rw [own] at found
      exact first ▸ roots'.placed _ (Store.place_of_child? homed.root).2 key d found
    | n + 1 => cases at_

/-! ### Calls -/

section Calls

variable {config : Config} {t : Session} (roots : Roots name p as t.2.store) (mem : t.1 ∈ as) {id : ScopeId}
  (below : (t.2.store.scope id).place = some (Store.root, .named name) ∨
    ∃ a ∈ as, a.name = name ∧ a.ingestor.rootScope = id)

include roots mem below

/-- An aggregation with its root scope below a name has that name. -/
theorem name_eq (own : id = t.1.ingestor.rootScope) : t.1.name = name := by
  rcases below with hangs | ⟨b, mem', named, same⟩
  · have place := (roots.berthed t.1 mem).top _ (own ▸ hangs)
    simpa [Key.named] using (Prod.mk.inj place).2.symm
  · exact ((roots.apart b mem' t.1 mem).name (same.trans own)).symm.trans named

/-- A scope below a name is no other scope of an aggregation than its root scope. -/
theorem foreign (other : id ≠ t.1.ingestor.rootScope) : id ∉ t.1.ingestor.sites.map Site.scope ∧ id ≠ t.log := by
  have berthed := roots.berthed t.1 mem
  -- Whatever is below the name hangs at the root of the store, and chained stages and logs do not.
  have top : ∀ place, (t.2.store.scope id).place = some place → place.1 = Store.root := by
    intro place hangs
    rcases below with hangs' | ⟨b, mem', -, rfl⟩
    · rw [← Option.some.inj (hangs'.symm.trans hangs)]
    · rw [(roots.berthed b mem').top place hangs]
  constructor
  · intro listed
    obtain ⟨root, behindSites, sites, own, -⟩ := berthed.housed.sites_eq
    have chained : id ∈ t.1.ingestor.sites.tail.map Site.scope := by
      rw [sites] at listed ⊢
      exact (List.mem_cons.1 listed).resolve_left fun same => other (same.trans own)
    rcases below with hangs | ⟨b, mem', -, rfl⟩
    · obtain ⟨site, behind, rfl⟩ := List.mem_map.1 chained
      exact berthed.chain site behind _ hangs rfl
    · exact (roots.apart b mem' t.1 mem).chain chained
  · rintro rfl
    have here : t.log < t.2.store.scopes.length := by
      rcases below with hangs | ⟨b, mem', -, same⟩
      · by_contra beyond
        rw [t.2.store.scope_of_length_le (Nat.le_of_not_lt beyond)] at hangs
        cases hangs
      · exact same ▸ (roots.berthed b mem').housed.rootScope_lt
    have hangs : (t.withLog.scope t.log).place = some (t.1.ingestor.rootScope, .named logName) :=
      t.2.store.place_openChild _ _
    rw [Session.withLog, (t.2.store.widened_openChild _ _).old t.log here] at hangs
    exact berthed.ne_root (top _ hangs)

omit below

variable (valid : config.validate = .ok ()) (chained : config.chainStore ≠ logName) (resident : Resident config t)

include resident

/-- A call that is no reset leaves what waits for the root made of events. -/
theorem traced_call {c : Call} (unreset : c ≠ .reset) (named : t.1.name = name) : ∃ root behindSites, root.stage = p.root ∧
    RootTraced p root behindSites (t.call c).1.ingestor (t.call c).2.store := by
  obtain ⟨root, behindSites, own, traced⟩ := roots.traced t.1 mem named
  obtain ⟨root', behindSites', sites, -, apart⟩ := (roots.berthed t.1 mem).housed.sites_eq
  obtain ⟨rfl, rfl⟩ := List.cons.inj (traced.sites.symm.trans sites)
  exact ⟨root, behindSites, own, ((keeps_perform_rooted own apart unreset) t.1 t.2 ⟨resident.lodged, traced⟩).1.2⟩

include valid chained

/-- A call that is no reset leaves what was there as it was, but for what its own root stores. -/
theorem kept_call {c : Call} (unreset : c ≠ .reset) : Roots name p as (t.call c).2.store := by
  have done := does valid chained resident c
  obtain ⟨extended, sameSites⟩ := extended_of_does done unreset
  refine roots.of_kept extended.kept fun id below' before => ?_
  have below : (t.2.store.scope id).place = some (Store.root, .named name) ∨
      ∃ a ∈ as, a.name = name ∧ a.ingestor.rootScope = id := by
    refine below'.imp_left fun hangs => ?_
    rcases places_of_does done unreset with places | places <;> rw [Store.place_eq, places, ← Store.place_eq] at hangs
    · exact hangs
    · refine (Store.place_of_openChild hangs).resolve_right fun log => ?_
      exact (roots.berthed t.1 mem).ne_root (Prod.mk.inj log).1.symm
  by_cases own : id = t.1.ingestor.rootScope
  -- In its own root scope the aggregation has stored what is made of events.
  · obtain ⟨root, behindSites, stage, traced⟩ :=
      roots.traced_call mem resident unreset (roots.name_eq mem below own)
    have here : id = root.scope := by
      rw [own, rootScope, ← sameSites, traced.sites]
      rfl
    intro key d found
    exact stage ▸ traced.stores (here ▸ found)
  · obtain ⟨foreign, unlogged⟩ := roots.foreign mem below own
    rwa [OfEvents, buckets_of_does done unreset foreign unlogged]

/-- A call that is no reset leaves what is stored below a name made of events. -/
theorem stays {c : Call} (unreset : c ≠ .reset) : Roots name p ((t.call c).1 :: as) (t.call c).2.store := by
  have done := does valid chained resident c
  obtain ⟨resident', sameName, samePipeline⟩ := resident.of_does done
  obtain ⟨extended, sameSites⟩ := extended_of_does done unreset
  have sameRoot : (t.call c).1.ingestor.rootScope = t.1.ingestor.rootScope := by rw [rootScope, rootScope, sameSites]
  have berthed : Berthed (t.call c).2.store (t.call c).1 := by
    have kept := (roots.berthed t.1 mem).kept extended.kept
    refine ⟨resident'.housed, ?_, ?_, ?_⟩
    · exact sameRoot ▸ kept.ne_root
    · exact sameRoot ▸ sameName ▸ kept.top
    · exact sameSites ▸ kept.chain
  refine (roots.kept_call mem valid chained resident unreset).cons berthed
    (fun b mem' => ⟨⟨?_, ?_⟩, ⟨?_, ?_⟩⟩) ?_ ?_
  · exact sameRoot ▸ (roots.apart t.1 mem b mem').chain
  · exact sameRoot ▸ sameName ▸ (roots.apart t.1 mem b mem').name
  · exact sameSites ▸ (roots.apart b mem' t.1 mem).chain
  · exact sameRoot ▸ sameName ▸ (roots.apart b mem' t.1 mem).name
  · exact fun named => samePipeline.trans (roots.pipeline t.1 mem (sameName ▸ named))
  · exact fun named => roots.traced_call mem resident unreset (sameName ▸ named)

/-- Every call leaves what is stored below a name made of events, whatever aggregation is called. -/
theorem call (c : Call) : Roots name p ((t.call c).1 :: as) (t.call c).2.store := by
  by_cases reset : c = .reset
  · subst reset
    obtain ⟨i, w', called, ran, opened⟩ := resident.reset valid chained
    rw [called]
    exact (roots.deletes (.named t.1.name)).opens
      (w := { t.2 with calls := t.2.calls + 1, store := t.2.store.deleteChild Store.root (.named t.1.name) })
      resident.never (resident.tree.deleteChild _ _) ran (opened.housed t.1.name) opened.tree opened.widened
      (roots.pipeline t.1 mem)
  · exact roots.stays mem valid chained resident reset

end Calls

end Roots

end Aggregation

/-! ## Engines -/

open Aggregation

namespace Engine

variable {name : String} {q : Query} {p : Pipeline} {e : Engine} (compiled : q.compile = .ok p)

include compiled

/-- A deed that opens the name with no other query leaves what is stored below it made of events. -/
theorem Sound.roots_act (sound : e.Sound) (roots : Roots name p (e.opened.map Prod.snd) e.world.store) {d : Deed}
    (alike : ∀ q', d = .opens name q' → q' = q) :
    Roots name p ((e.act d).opened.map Prod.snd) (e.act d).world.store := by
  have effect := sound.effect d
  generalize e.act d = e' at effect ⊢
  cases effect with
  | @opened other q' p' i w _ _ compiled' ran resident widened =>
    have joined := roots.opens sound.never sound.tree (openIngestor_of_openNamed ran).2 resident.housed resident.tree
      widened fun same => by
        obtain rfl := alike q' (same ▸ rfl)
        exact Except.ok.inj (compiled'.symm.trans compiled)
    refine joined.mono fun b mem => ?_
    rw [List.map_append, List.mem_append, List.map_singleton, List.mem_singleton] at mem
    exact List.mem_cons.2 mem.symm
  | @called i c q' a found valid chained _ resident =>
    have mem : a ∈ e.opened.map Prod.snd := List.mem_map.2 ⟨_, List.mem_of_getElem? found, rfl⟩
    have called := Roots.call (t := (a, e.world)) roots mem valid chained resident c
    refine called.mono fun b mem => ?_
    obtain ⟨qb, listed, rfl⟩ := List.mem_map.1 mem
    rcases List.mem_or_eq_of_mem_set listed with old | rfl
    · exact List.mem_cons_of_mem _ (List.mem_map_of_mem old)
    · exact List.mem_cons_self
  | refused | absent => exact roots

/-- While a name is opened with one query only, all that is stored below it is made of events. -/
theorem roots_acts {config : Config} {ds : List Deed} (alike : ∀ q', .opens name q' ∈ ds → q' = q) :
    Roots name p ((({ config } : Engine).acts ds).opened.map Prod.snd) (({ config } : Engine).acts ds).world.store := by
  refine ((sound_fresh config).acts_induction
    (p := fun e => Roots name p (e.opened.map Prod.snd) e.world.store) .fresh fun e d mem sound roots => ?_).2
  refine sound.roots_act compiled roots ?_
  rintro q' rfl
  exact alike q' mem

end Engine

end Rollup
