import Rollup.Proofs.Aggregation.Backlogs

/-!
# Sessions in lockstep

Two sessions are `Alike` if they keep the same pipeline, each in scopes of its own, with the same
entries, the same queues and the same documents in their logs, where the markers of one log are those
of the other renamed.  The same call, with its marker renamed, returns the same on both and leaves
them alike (`Alike.agrees`); how far the stores have otherwise come apart does not matter.
-/

namespace Rollup

open Ingest

/-! ## Corresponding scopes -/

namespace Ingestor

/-- The scopes of two ingestors that stand for each other. -/
def pairs (i i' : Ingestor) : List (ScopeId × ScopeId) :=
  (i.sites.zip i'.sites).map fun p => (p.1.scope, p.2.scope)

variable {i i' j j' : Ingestor}

theorem pairs_later (later : i.Later j) (later' : i'.Later j') : j.pairs j' = i.pairs i' := by
  rw [pairs, pairs, later.sites, later'.sites]

theorem exists_of_mem_pairs {p : ScopeId × ScopeId} (mem : p ∈ i.pairs i') :
    ∃ site ∈ i.sites, ∃ site' ∈ i'.sites, site.scope = p.1 ∧ site'.scope = p.2 := by
  obtain ⟨⟨site, site'⟩, zipped, rfl⟩ := List.mem_map.1 mem
  obtain ⟨listed, listed'⟩ := List.of_mem_zip zipped
  exact ⟨site, listed, site', listed', rfl, rfl⟩

theorem fst_pairs_subset : (i.pairs i').map Prod.fst ⊆ i.sites.map Site.scope := by
  intro id mem
  obtain ⟨p, paired, rfl⟩ := List.mem_map.1 mem
  obtain ⟨site, listed, -, -, own, -⟩ := exists_of_mem_pairs paired
  exact List.mem_map.2 ⟨site, listed, own⟩

theorem snd_pairs_subset : (i.pairs i').map Prod.snd ⊆ i'.sites.map Site.scope := by
  intro id mem
  obtain ⟨p, paired, rfl⟩ := List.mem_map.1 mem
  obtain ⟨-, -, site, listed, -, own⟩ := exists_of_mem_pairs paired
  exact List.mem_map.2 ⟨site, listed, own⟩

/-- Ingestors with the same stages correspond site by site. -/
theorem twin_sites (stages : i'.sites.map Site.stage = i.sites.map Site.stage) :
    List.Forall₂ (Site.Twin (i.pairs i')) i.sites i'.sites := by
  have length : i.sites.length = i'.sites.length := by
    have lengths := congrArg List.length stages
    rw [List.length_map, List.length_map] at lengths
    exact lengths.symm
  refine List.forall₂_iff_zip.2 ⟨length, fun {site site'} zipped => ⟨?_, ?_⟩⟩
  · obtain ⟨n, here, same⟩ := List.mem_iff_getElem.1 zipped
    rw [List.getElem_zip, Prod.mk.injEq] at same
    obtain ⟨rfl, rfl⟩ := same
    have stage := List.getElem_of_eq stages (i := n) (by
      rw [List.length_map]
      exact Nat.lt_of_lt_of_le here (by rw [List.length_zip]; exact Nat.min_le_right _ _))
    rw [List.getElem_map, List.getElem_map] at stage
    exact stage
  · exact List.mem_map.2 ⟨(site, site'), zipped, rfl⟩

/-- Scopes that are different on both sides correspond one to one. -/
theorem pairs_apart (nodup : (i.sites.map Site.scope).Nodup) (nodup' : (i'.sites.map Site.scope).Nodup) :
    ∀ p ∈ i.pairs i', ∀ p' ∈ i.pairs i', p.1 = p'.1 ↔ p.2 = p'.2 := by
  have zipped : i.pairs i' = (i.sites.map Site.scope).zip (i'.sites.map Site.scope) := by
    rw [List.zip_map, pairs]
    rfl
  rw [zipped]
  intro p mem p' mem'
  obtain ⟨n, here, rfl⟩ := List.mem_iff_getElem.1 mem
  obtain ⟨k, there, rfl⟩ := List.mem_iff_getElem.1 mem'
  simp only [List.getElem_zip]
  rw [nodup.getElem_inj_iff, nodup'.getElem_inj_iff]

section Ends

variable {pairs : List (ScopeId × ScopeId)} (twin : Twin pairs i i') (some_ : i.sites ≠ [])

include twin some_

theorem Twin.rootScope_mem : (i.rootScope, i'.rootScope) ∈ pairs := by
  have sites := twin.sites
  rw [rootScope, rootScope]
  cases own : i.sites with
  | nil => exact absurd own some_
  | cons site rest =>
    rw [own] at sites
    obtain ⟨site', rest', head, -, own'⟩ := List.forall₂_cons_left_iff.1 sites
    rw [own']
    exact head.mem

theorem Twin.finalScope_mem : (i.finalScope, i'.finalScope) ∈ pairs := by
  have sites := List.forall₂_reverse_iff.2 twin.sites
  rw [finalScope, finalScope, List.getLast?_eq_head?_reverse, List.getLast?_eq_head?_reverse]
  cases own : i.sites.reverse with
  | nil => exact absurd (List.reverse_eq_nil_iff.1 own) some_
  | cons site rest =>
    rw [own] at sites
    obtain ⟨site', rest', head, -, own'⟩ := List.forall₂_cons_left_iff.1 sites
    rw [own']
    exact head.mem

end Ends

end Ingestor

theorem Frame.mono {mine yours : List ScopeId} {w v : World} (frame : Frame mine w v) (sub : mine ⊆ yours) :
    Frame yours w v where
  plan := frame.plan
  tree := frame.tree
  appended := frame.appended
  buckets id other := frame.buckets id fun own => other (sub own)

namespace Aggregation

open Ingestor Session

/-! ## Renaming -/

/-- A call with its marker renamed. -/
def Call.rename (ren : Int64 → Int64) : Call → Call
  | .retract m => .retract (ren m)
  | .replay m => .replay (ren m)
  | c => c

/-- What a call returned, with its marker renamed. -/
def Reply.rename (ren : Int64 → Int64) : Reply → Reply
  | .marker m => .marker (ren m)
  | r => r

/-- A call passes a marker. -/
def Call.Passes (c : Call) (m : Int64) : Prop := c = .retract m ∨ c = .replay m

/-- Up to two bounds, markers are renamed in their order, and -1 stays. -/
structure Renames (ren : Int64 → Int64) (known : List Int64) (next next' : Nat) : Prop where
  start : ren (-1) = -1
  mono : ∀ m ∈ -1 :: known, ∀ n ∈ -1 :: known, m < n → ren m < ren n
  issued : ∀ m ∈ known, m.toInt < next
  issued' : ∀ m ∈ known, (ren m).toInt < next'
  after : ∀ m ∈ known, -1 < m

namespace Renames

variable {ren : Int64 → Int64} {known : List Int64} {next next' : Nat} {m n : Int64}

theorem nil (start : ren (-1) = -1) : Renames ren [] next next' where
  start := start
  mono m mem n mem' less := by
    rw [List.mem_singleton.1 mem, List.mem_singleton.1 mem'] at less
    exact absurd less Int64.lt_irrefl
  issued m mem := absurd mem List.not_mem_nil
  issued' m mem := absurd mem List.not_mem_nil
  after m mem := absurd mem List.not_mem_nil

/-- What is known is below the next marker. -/
theorem lt_next (renames : Renames ren known next next') (mem : m ∈ -1 :: known) : m.toInt < next := by
  rcases List.mem_cons.1 mem with rfl | old
  · exact Int.lt_of_lt_of_le (by decide) (Int.natCast_nonneg _)
  · exact renames.issued m old

/-- What is known is renamed to something below the next marker on the other side. -/
theorem lt_next' (renames : Renames ren known next next') (mem : m ∈ -1 :: known) : (ren m).toInt < next' := by
  rcases List.mem_cons.1 mem with rfl | old
  · rw [renames.start]
    exact Int.lt_of_lt_of_le (by decide) (Int.natCast_nonneg _)
  · exact renames.issued' m old

/-- The next marker is greater than all before it, and so is what it is renamed to. -/
theorem extend (renames : Renames ren known next next') (left : next < 2 ^ 63) (left' : next' < 2 ^ 63)
    (same : ren (Int64.ofNat next) = Int64.ofNat next') :
    Renames ren (known ++ [Int64.ofNat next]) (next + 1) (next' + 1) := by
  have value : (Int64.ofNat next).toInt = next := Int64.toInt_ofNat_of_lt left
  have value' : (Int64.ofNat next').toInt = next' := Int64.toInt_ofNat_of_lt left'
  have split : ∀ m ∈ -1 :: (known ++ [Int64.ofNat next]), m ∈ -1 :: known ∨ m = Int64.ofNat next := by
    intro m mem
    rw [← List.cons_append, List.mem_append, List.mem_singleton] at mem
    exact mem
  constructor
  case start => exact renames.start
  case mono =>
    -- Two old markers compare as before; one more is the greatest on both sides.
    intro m mem n mem' less
    rw [Int64.lt_iff_toInt_lt] at less ⊢
    rcases split m mem with old | rfl
    · rcases split n mem' with old' | rfl
      · exact Int64.lt_iff_toInt_lt.1 (renames.mono m old n old' (Int64.lt_iff_toInt_lt.2 less))
      · rw [same, value']
        exact renames.lt_next' old
    · rcases split n mem' with old' | rfl
      · rw [value] at less
        exact absurd less (Int.lt_asymm (renames.lt_next old'))
      · exact absurd less (Int.lt_irrefl _)
  case issued =>
    intro m mem
    rcases List.mem_append.1 mem with old | last
    · exact Int.lt_add_one_of_le (Int.le_of_lt (renames.issued m old))
    · rw [List.mem_singleton.1 last, value]
      exact Int.lt_succ _
  case issued' =>
    intro m mem
    rcases List.mem_append.1 mem with old | last
    · exact Int.lt_add_one_of_le (Int.le_of_lt (renames.issued' m old))
    · rw [List.mem_singleton.1 last, same, value']
      exact Int.lt_succ _
  case after =>
    intro m mem
    rcases List.mem_append.1 mem with old | last
    · exact renames.after m old
    · rw [List.mem_singleton.1 last, Int64.lt_iff_toInt_lt, value]
      exact Int.lt_of_lt_of_le (by decide) (Int.natCast_nonneg _)

variable (renames : Renames ren known next next') (mem : m ∈ -1 :: known) (mem' : n ∈ -1 :: known)

include renames mem mem'

theorem eq_iff : ren m = ren n ↔ m = n := by
  refine ⟨fun same => ?_, fun same => same ▸ rfl⟩
  rcases Int.lt_trichotomy m.toInt n.toInt with less | equal | greater
  · have apart := renames.mono m mem n mem' (Int64.lt_iff_toInt_lt.2 less)
    rw [same] at apart
    exact absurd apart Int64.lt_irrefl
  · exact Int64.toInt_inj.1 equal
  · have apart := renames.mono n mem' m mem (Int64.lt_iff_toInt_lt.2 greater)
    rw [same] at apart
    exact absurd apart Int64.lt_irrefl

theorem lt_iff : ren m < ren n ↔ m < n := by
  refine ⟨fun less => ?_, renames.mono m mem n mem'⟩
  rcases Int.lt_trichotomy m.toInt n.toInt with less' | equal | greater
  · exact Int64.lt_iff_toInt_lt.2 less'
  · rw [Int64.toInt_inj.1 equal] at less
    exact absurd less Int64.lt_irrefl
  · have reverse := renames.mono n mem' m mem (Int64.lt_iff_toInt_lt.2 greater)
    exact absurd (Int64.lt_trans less reverse) Int64.lt_irrefl

omit mem' in
theorem start_le : -1 ≤ ren m ∧ -1 ≤ m := by
  rcases List.mem_cons.1 mem with rfl | old
  · rw [renames.start]
    exact ⟨Int64.le_refl _, Int64.le_refl _⟩
  · have after := renames.after m old
    have first := renames.mono (-1) List.mem_cons_self m mem after
    rw [renames.start] at first
    exact ⟨Int64.le_of_lt first, Int64.le_of_lt after⟩

end Renames

/-- Documents with their markers renamed. -/
def renamed (ren : Int64 → Int64) (docs : List (Int64 × Document)) : List (Int64 × Document) :=
  docs.map fun e => (ren e.1, e.2)

section Renamed

variable {ren : Int64 → Int64} {known : List Int64} {next next' : Nat} {docs : List (Int64 × Document)} {m : Int64}
  (renames : Renames ren known next next') (listed : ∀ e ∈ docs, e.1 ∈ known) (mem : m ∈ -1 :: known)

include renames listed mem

theorem mem_renamed {d : Document} : (ren m, d) ∈ renamed ren docs ↔ (m, d) ∈ docs := by
  rw [renamed, List.mem_map]
  constructor
  · rintro ⟨⟨n, doc⟩, here, same⟩
    simp only [Prod.mk.injEq] at same
    obtain rfl := (renames.eq_iff (List.mem_cons_of_mem _ (listed _ here)) mem).1 same.1
    exact same.2 ▸ here
  · exact fun here => ⟨(m, d), here, rfl⟩

theorem filter_renamed_ne : (renamed ren docs).filter (·.1 ≠ ren m) = renamed ren (docs.filter (·.1 ≠ m)) := by
  rw [renamed, List.filter_map, renamed]
  congr 1
  refine List.filter_congr fun e here => decide_eq_decide.2 (not_congr ?_)
  exact renames.eq_iff (List.mem_cons_of_mem _ (listed e here)) mem

theorem filter_renamed_lt : (renamed ren docs).filter (ren m < ·.1) = renamed ren (docs.filter (m < ·.1)) := by
  rw [renamed, List.filter_map, renamed]
  congr 1
  refine List.filter_congr fun e here => decide_eq_decide.2 ?_
  exact renames.lt_iff mem (List.mem_cons_of_mem _ (listed e here))

theorem highWater_renamed : highWater (ren m) ((renamed ren docs).map fun e => (.numbered e.1, e.2)) =
    ren (highWater m (docs.map fun e => (.numbered e.1, e.2))) := by
  induction docs generalizing m with
  | nil => rfl
  | cons e rest ih =>
    have here := List.mem_cons_of_mem (-1) (listed e List.mem_cons_self)
    have later := ih (m := if m < e.1 then e.1 else m) (fun e' mem => listed e' (List.mem_cons_of_mem _ mem)) (by
      split
      · exact here
      · exact mem)
    rw [List.map_cons, highWater_cons, ← later]
    rw [renamed, List.map_cons, List.map_cons, highWater_cons, renamed]
    congr 1
    simp only [renames.lt_iff mem here]
    split <;> rfl

end Renamed

/-! ## Alike -/

/-- Two sessions of one pipeline with the same entries, queues and logged documents, with the markers of
the first log renamed. -/
structure Alike (config : Config) (ren : Int64 → Int64) (known : List Int64) (t t' : Session) : Prop where
  resident : Resident config t
  resident' : Resident config t'
  name : t'.1.name = t.1.name
  pipeline : t'.1.pipeline = t.1.pipeline
  twin : Twin (t.1.ingestor.pairs t'.1.ingestor) t.1.ingestor t'.1.ingestor
  same : ∀ p ∈ t.1.ingestor.pairs t'.1.ingestor, t'.2.store.buckets p.2 = t.2.store.buckets p.1
  renames : Renames ren known t.2.store.nextMarker t'.2.store.nextMarker
  logged : ∃ docs, (∀ e ∈ docs, e.1 ∈ known) ∧ Backlog t (-1) docs ∧ Backlog t' (-1) (renamed ren docs)

/-- Aggregations of one pipeline that were opened in new scopes are alike. -/
theorem alike_of_opened {config : Config} {ren : Int64 → Int64} {known : List Int64} {a a' : Aggregation}
    {s s' : Store} {w w' : World} (name : a'.name = a.name) (pipeline : a'.pipeline = a.pipeline)
    (opened : Opened config a.pipeline s a.ingestor w) (opened' : Opened config a.pipeline s' a'.ingestor w')
    (renames : Renames ren known w.store.nextMarker w'.store.nextMarker) : Alike config ren known (a, w) (a', w') where
  resident := .of_opened opened
  resident' := .of_opened (pipeline ▸ opened')
  name := name
  pipeline := pipeline
  twin := {
    sites := twin_sites (opened'.stages.trans opened.stages.symm)
    queues := by
      have stages := congrArg (List.map fun _ => ({} : Queues)) (opened'.stages.trans opened.stages.symm)
      rw [List.map_map, List.map_map] at stages
      exact opened'.queues.trans (stages.trans opened.queues.symm)
    config := opened'.config.trans opened.config.symm
    pending := opened'.pending.trans opened.pending.symm }
  same p mem := by
    obtain ⟨site, listed, site', listed', own, own'⟩ := exists_of_mem_pairs mem
    rw [← own, ← own']
    exact (opened'.empty site' listed').trans (opened.empty site listed).symm
  renames := renames
  logged := by
    -- Neither log has been made, so both have no documents.
    have passed (n : Nat) : (-1 : Int64).toInt < n := Int.lt_of_lt_of_le (by decide) (Int.natCast_nonneg n)
    exact ⟨[], fun e mem => absurd mem List.not_mem_nil, .of_unmade opened.logScope_eq.ge (passed _),
      .of_unmade opened'.logScope_eq.ge (passed _)⟩

theorem Resident.ne_log {config : Config} {t : Session} (resident : Resident config t) {id : ScopeId}
    (own : id ∈ t.1.ingestor.sites.map Site.scope) : id ≠ t.log := by
  rintro rfl
  exact resident.housed.log_not_mem own

/-- A log that is not full takes a document under the next marker, apart from the scopes of the sites. -/
theorem Resident.appends {config : Config} {t : Session} (resident : Resident config t)
    (left : t.2.store.nextMarker < 2 ^ 63) (d : Document) :
    ∃ s, t.withLog.append? t.log d = some (Int64.ofNat t.2.store.nextMarker, s) ∧
      s.nextMarker = t.2.store.nextMarker + 1 ∧ s.places = t.withLog.places ∧
      ∀ id ∈ t.1.ingestor.sites.map Site.scope, s.buckets id = t.2.store.buckets id := by
  have widened := t.2.store.widened_openChild t.1.ingestor.rootScope (.named logName)
  have marker : t.withLog.nextMarker = t.2.store.nextMarker := widened.marker
  have here : t.log < t.withLog.scopes.length := t.2.store.openChild_lt _ _
  obtain ⟨s, made, next, places, -, others⟩ := Store.append?_eq (marker ▸ left) here d
  rw [marker] at made next
  refine ⟨s, made, next, places, fun id own => ?_⟩
  rw [others id (resident.ne_log own)]
  exact widened.buckets_eq id

namespace Alike

variable {config : Config} {ren : Int64 → Int64} {known : List Int64} {t t' : Session}

section

variable (alike : Alike config ren known t t')

include alike

theorem twins : Twins (t.1.ingestor.pairs t'.1.ingestor) t.2 t'.2 where
  never := alike.resident.never
  never' := alike.resident'.never
  apart := pairs_apart alike.resident.housed.placed.nodup alike.resident'.housed.placed.nodup
  open_ p mem := by
    obtain ⟨site, listed, -, -, own, -⟩ := exists_of_mem_pairs mem
    exact own ▸ alike.resident.housed.placed.open_ site listed
  open_' p mem := by
    obtain ⟨-, -, site, listed, -, own⟩ := exists_of_mem_pairs mem
    exact own ▸ alike.resident'.housed.placed.open_ site listed
  same := alike.same

/-- Ingestors that work in parallel leave their sessions alike. -/
theorem moved {j j' : Ingestor} {v v' : World}
    (moved : Twin.Moved (t.1.ingestor.pairs t'.1.ingestor) t.1.ingestor t'.1.ingestor j j' t.2 t'.2 v v') :
    Worked t ({ t.1 with ingestor := j }, v) ∧ Worked t' ({ t'.1 with ingestor := j' }, v') ∧
      Alike config ren known ({ t.1 with ingestor := j }, v) ({ t'.1 with ingestor := j' }, v') := by
  have worked : Worked t ({ t.1 with ingestor := j }, v) := ⟨rfl, moved.later, moved.moved.frame.mono fst_pairs_subset⟩
  have worked' : Worked t' ({ t'.1 with ingestor := j' }, v') :=
    ⟨rfl, moved.later', moved.moved.frame'.mono snd_pairs_subset⟩
  refine ⟨worked, worked', ?_⟩
  have pairs := pairs_later moved.later moved.later'
  obtain ⟨docs, listed, backlog, backlog'⟩ := alike.logged
  constructor
  case resident => exact alike.resident.worked worked
  case resident' => exact alike.resident'.worked worked'
  case name => exact alike.name
  case pipeline => exact alike.pipeline
  case twin =>
    rw [pairs]
    exact moved.twin
  case same =>
    rw [pairs]
    exact moved.moved.twins.same
  case renames =>
    rw [worked.frame.tree.marker, worked'.frame.tree.marker]
    exact alike.renames
  case logged => exact ⟨docs, listed, backlog.worked alike.resident worked, backlog'.worked alike.resident' worked'⟩

/-- Two sessions stay alike while their logs change alike. -/
theorem of_logged {known' : List Int64} {w w' : World} (resident : Resident config (t.1, w))
    (resident' : Resident config (t'.1, w'))
    (buckets : ∀ id ∈ t.1.ingestor.sites.map Site.scope, w.store.buckets id = t.2.store.buckets id)
    (buckets' : ∀ id ∈ t'.1.ingestor.sites.map Site.scope, w'.store.buckets id = t'.2.store.buckets id)
    (renames : Renames ren known' w.store.nextMarker w'.store.nextMarker)
    (logged : ∃ docs, (∀ e ∈ docs, e.1 ∈ known') ∧ Backlog (t.1, w) (-1) docs ∧
      Backlog (t'.1, w') (-1) (renamed ren docs)) :
    Alike config ren known' (t.1, w) (t'.1, w') where
  resident := resident
  resident' := resident'
  name := alike.name
  pipeline := alike.pipeline
  twin := alike.twin
  same p mem := by
    have own := fst_pairs_subset (List.mem_map_of_mem mem)
    have own' := snd_pairs_subset (List.mem_map_of_mem mem)
    exact (buckets' p.2 own').trans ((alike.same p mem).trans (buckets p.1 own).symm)
  renames := renames
  logged := logged

/-- Making the logs changes nothing. -/
theorem opens_log {w w' : World} (never : w.plan = .never) (store : w.store = t.withLog) (never' : w'.plan = .never)
    (store' : w'.store = t'.withLog) : Alike config ren known (t.1, w) (t'.1, w') := by
  have widened := t.2.store.widened_openChild t.1.ingestor.rootScope (.named logName)
  have widened' := t'.2.store.widened_openChild t'.1.ingestor.rootScope (.named logName)
  obtain ⟨docs, listed, backlog, backlog'⟩ := alike.logged
  apply alike.of_logged (alike.resident.opens_log never store) (alike.resident'.opens_log never' store')
  case buckets =>
    rw [store]
    exact fun id _ => widened.buckets_eq id
  case buckets' =>
    rw [store']
    exact fun id _ => widened'.buckets_eq id
  case renames =>
    rw [store, store', Session.withLog, Session.withLog, widened.marker, widened'.marker]
    exact alike.renames
  case logged => exact ⟨docs, listed, backlog.opens_log store, backlog'.opens_log store'⟩

/-- Accesses that change no store leave sessions alike. -/
theorem of_eq {w w' : World} (plan : w.plan = t.2.plan) (store : w.store = t.2.store) (plan' : w'.plan = t'.2.plan)
    (store' : w'.store = t'.2.store) : Alike config ren known (t.1, w) (t'.1, w') :=
  (alike.moved ⟨alike.twin, .refl _, .refl _, alike.twins.of_eq plan store plan' store'⟩).2.2

/-! ### Queueing -/

theorem push {ε : Type} (phase : Phase) (doc : Document) :
    ∃ u u', (onIngestor (Ingestor.push phase doc) : Action ε Aggregation Unit).run t.1 t.2 = (.ok (), u) ∧
      (onIngestor (Ingestor.push phase doc) : Action ε Aggregation Unit).run t'.1 t'.2 = (.ok (), u') ∧
      Worked t u ∧ Worked t' u' ∧ Alike config ren known u u' := by
  obtain ⟨j, j', v, v', ran, ran', moved⟩ := run_push_twin (ε := ε) alike.twin alike.twins phase doc
  refine ⟨_, _, ?_, ?_, alike.moved moved⟩
  · rw [onIngestor, Action.run_zoom, ran]
  · rw [onIngestor, Action.run_zoom, ran']

omit alike in
theorem ingestAll {ε : Type} (alike : Alike config ren known t t') (docs : List Document) :
    ∃ u u', (docs.forM fun d => ingest d : Action ε Aggregation Unit).run t.1 t.2 = (.ok (), u) ∧
      (docs.forM fun d => ingest d : Action ε Aggregation Unit).run t'.1 t'.2 = (.ok (), u') ∧
      Alike config ren known u u' := by
  induction docs generalizing t t' with
  | nil => exact ⟨t, t', rfl, rfl, alike⟩
  | cons d rest ih =>
    obtain ⟨u, u', first, first', -, -, alike₁⟩ := alike.push (ε := ε) .add d
    have first : (ingest d : Action ε Aggregation Unit).run t.1 t.2 = (.ok (), u) := first
    have first' : (ingest d : Action ε Aggregation Unit).run t'.1 t'.2 = (.ok (), u') := first'
    obtain ⟨v, v', later, later', alike₂⟩ := ih alike₁
    refine ⟨v, v', ?_, ?_, alike₂⟩
    · rw [List.forM_eq_forM, List.forM_cons, Action.run_bind, first]
      exact later
    · rw [List.forM_eq_forM, List.forM_cons, Action.run_bind, first']
      exact later'

theorem commit : ∃ r u u', commit.run t.1 t.2 = (r, u) ∧ commit.run t'.1 t'.2 = (r, u') ∧
    Alike config ren known u u' := by
  obtain ⟨r, j, j', v, v', ran, ran', moved⟩ := run_commit_twin alike.twin alike.twins
  have committed : (onIngestor Ingestor.commit).run t.1 t.2 = (r, { t.1 with ingestor := j }, v) := by
    rw [onIngestor, Action.run_zoom, ran]
  have committed' : (onIngestor Ingestor.commit).run t'.1 t'.2 = (r, { t'.1 with ingestor := j' }, v') := by
    rw [onIngestor, Action.run_zoom, ran']
  rw [Aggregation.commit, reported, Action.mapError, Action.run_ofRun, Action.run_ofRun, committed, committed']
  rcases r with (e | _) | _ <;> exact ⟨_, _, _, rfl, rfl, (alike.moved moved).2.2⟩

/-! ### The logs -/

theorem appends (left : t.2.store.nextMarker < 2 ^ 63) (left' : t'.2.store.nextMarker < 2 ^ 63)
    (same : ren (Int64.ofNat t.2.store.nextMarker) = Int64.ofNat t'.2.store.nextMarker) (d : Document) :
    ∃ s s', t.withLog.append? t.log d = some (Int64.ofNat t.2.store.nextMarker, s) ∧
      t'.withLog.append? t'.log d = some (Int64.ofNat t'.2.store.nextMarker, s') ∧
      ∀ w w' : World, w.plan = .never → w.store = s → w'.plan = .never → w'.store = s' →
        Alike config ren (known ++ [Int64.ofNat t.2.store.nextMarker]) (t.1, w) (t'.1, w') := by
  obtain ⟨s, made, next, places, buckets⟩ := alike.resident.appends left d
  obtain ⟨s', made', next', places', buckets'⟩ := alike.resident'.appends left' d
  refine ⟨s, s', made, made', ?_⟩
  rintro w w' never rfl never' rfl
  obtain ⟨docs, listed, backlog, backlog'⟩ := alike.logged
  obtain ⟨-, -, grown⟩ := backlog.append made (w := w) rfl
  obtain ⟨-, -, grown'⟩ := backlog'.append made' (w := w') rfl
  have opened := alike.resident.opens_log (w := { w with store := t.withLog }) never rfl
  have opened' := alike.resident'.opens_log (w := { w' with store := t'.withLog }) never' rfl
  -- Each log takes the document under its own next marker, and those correspond.
  apply alike.of_logged (opened.of_places never places) (opened'.of_places never' places') buckets buckets'
  case renames =>
    rw [next, next']
    exact alike.renames.extend left left' same
  case logged =>
    refine ⟨docs ++ [(Int64.ofNat t.2.store.nextMarker, d)], ?_, grown, ?_⟩
    · intro e mem
      rcases List.mem_append.1 mem with old | last
      · exact List.mem_append_left _ (listed e old)
      · rw [List.mem_singleton.1 last]
        exact List.mem_append_right _ (List.mem_singleton_self _)
    · rw [renamed, List.map_append, List.map_singleton, same]
      exact grown'

section Known

variable {m : Int64} (mem : m ∈ -1 :: known)

include mem

/-- Under a marker both logs have the same. -/
theorem get?_log : (t'.2.store.buckets t'.log).get? (.numbered (ren m)) = (t.2.store.buckets t.log).get? (.numbered m) := by
  obtain ⟨docs, listed, backlog, backlog'⟩ := alike.logged
  refine Option.ext fun d => ?_
  rw [backlog.get?_iff, backlog'.get?_iff, mem_renamed alike.renames listed mem]

/-- Both logs had the same appended after a marker. -/
theorem appendedSince_log :
    (t'.2.store.appendedSince t'.log (ren m)).map Prod.snd = (t.2.store.appendedSince t.log m).map Prod.snd ∧
      highWater (ren m) (t'.2.store.appendedSince t'.log (ren m)) = ren (highWater m (t.2.store.appendedSince t.log m)) := by
  obtain ⟨docs, listed, backlog, backlog'⟩ := alike.logged
  obtain ⟨start', start⟩ := alike.renames.start_le mem
  rw [backlog.appended_after start, backlog'.appended_after start', filter_renamed_lt alike.renames listed mem]
  have listed' : ∀ e ∈ docs.filter (m < ·.1), e.1 ∈ known := fun e here => listed e (List.mem_filter.1 here).1
  refine ⟨?_, highWater_renamed alike.renames listed' mem⟩
  rw [renamed, List.map_map, List.map_map, List.map_map]
  rfl

/-- A replay returns the marker it was given or one of the log. -/
theorem highWater_mem : highWater m (t.2.store.appendedSince t.log m) ∈ -1 :: known := by
  obtain ⟨docs, listed, backlog, -⟩ := alike.logged
  rw [backlog.appended_after (alike.renames.start_le mem).2]
  rcases (highWater_spec m (docs.filter (m < ·.1))).1 with given | ⟨e, here, last⟩
  · rw [given]
    exact mem
  · rw [last]
    exact List.mem_cons_of_mem _ (listed e (List.mem_filter.1 here).1)

/-- A document is dropped from both logs. -/
theorem erases (here : t.log < t.2.store.scopes.length) (here' : t'.log < t'.2.store.scopes.length) {w w' : World}
    (never : w.plan = .never) (store : w.store = t.2.store.set t.log (.numbered m) none) (never' : w'.plan = .never)
    (store' : w'.store = t'.2.store.set t'.log (.numbered (ren m)) none) :
    Alike config ren known (t.1, w) (t'.1, w') := by
  obtain ⟨docs, listed, backlog, backlog'⟩ := alike.logged
  have tree := t.2.store.sameTree_set t.log (.numbered m) none
  have tree' := t'.2.store.sameTree_set t'.log (.numbered (ren m)) none
  apply alike.of_logged (alike.resident.of_places never (store ▸ tree.places))
    (alike.resident'.of_places never' (store' ▸ tree'.places))
  case buckets =>
    intro id own
    rw [store]
    exact t.2.store.buckets_set_of_ne (alike.resident.ne_log own) _ _
  case buckets' =>
    intro id own
    rw [store']
    exact t'.2.store.buckets_set_of_ne (alike.resident'.ne_log own) _ _
  case renames =>
    rw [store, store', tree.marker, tree'.marker]
    exact alike.renames
  case logged =>
    refine ⟨docs.filter (·.1 ≠ m), fun e listed' => listed e (List.mem_filter.1 listed').1, backlog.erase here m store, ?_⟩
    rw [← filter_renamed_ne alike.renames listed mem]
    exact backlog'.erase here' (ren m) store'

end Known

end

/-! ### Calls -/

/-- A call and the same call with its marker renamed return the same, a marker that is known then, and leave
sessions alike. -/
structure Agrees (config : Config) (ren : Int64 → Int64) (known : List Int64) (t t' : Session) (c : Call) : Prop where
  same : t'.reply (c.rename ren) = (t.reply c).map (Reply.rename ren)
  returned : ∀ m, t.reply c = .ok (.marker m) → m ∈ -1 :: (known ++ handed c (t.reply c))
  alike : Alike config ren (known ++ handed c (t.reply c)) (t.call c) (t'.call (c.rename ren))

theorem agrees_of_runs {c : Call} {r r' : Except (Failure Report) Reply} {u u' : Session}
    (ran : (perform c).run t.1 t.2 = (r, u)) (ran' : (perform (c.rename ren)).run t'.1 t'.2 = (r', u'))
    (same : r' = r.map (Reply.rename ren)) {new : List Int64} (handed : handed c r = new)
    (returned : ∀ m, r = .ok (.marker m) → m ∈ -1 :: (known ++ new)) (alike : Alike config ren (known ++ new) u u') :
    Agrees config ren known t t' c := by
  constructor <;> simp only [Session.reply, Session.call, ran, ran', handed]
  case same => exact same
  case returned => exact returned
  case alike => exact alike

/-- A call that hands out no marker. -/
theorem agrees_of_unhanded {c : Call} {r r' : Except (Failure Report) Reply} {u u' : Session}
    (ran : (perform c).run t.1 t.2 = (r, u)) (ran' : (perform (c.rename ren)).run t'.1 t'.2 = (r', u'))
    (same : r' = r.map (Reply.rename ren)) (none : handed c r = [])
    (returned : ∀ m, r = .ok (.marker m) → m ∈ -1 :: known) (alike : Alike config ren known u u') :
    Agrees config ren known t t' c := by
  refine agrees_of_runs ran ran' same none ?_ ?_
  · rw [List.append_nil]
    exact returned
  · rw [List.append_nil]
    exact alike

section Calls

variable (alike : Alike config ren known t t')

include alike

theorem agrees_ingest (doc : Document) : Agrees config ren known t t' (.ingest doc) := by
  obtain ⟨u, u', ran, ran', -, -, alike'⟩ := alike.push (ε := Report) .add doc
  have performed : (perform (.ingest doc)).run t.1 t.2 = (.ok .done, u) := by
    rw [perform, Action.run_bind, ingest, Ingestor.ingest, ran]
    rfl
  have performed' : (perform (.ingest doc)).run t'.1 t'.2 = (.ok .done, u') := by
    rw [perform, Action.run_bind, ingest, Ingestor.ingest, ran']
    rfl
  exact agrees_of_unhanded performed performed' rfl rfl (fun _ same => by cases same) alike'

theorem agrees_uningest (doc : Document) : Agrees config ren known t t' (.uningest doc) := by
  obtain ⟨u, u', ran, ran', -, -, alike'⟩ := alike.push (ε := Report) .retract doc
  have performed : (perform (.uningest doc)).run t.1 t.2 = (.ok .done, u) := by
    rw [perform, Action.run_bind, uningest, Ingestor.uningest, ran]
    rfl
  have performed' : (perform (.uningest doc)).run t'.1 t'.2 = (.ok .done, u') := by
    rw [perform, Action.run_bind, uningest, Ingestor.uningest, ran']
    rfl
  exact agrees_of_unhanded performed performed' rfl rfl (fun _ same => by cases same) alike'

theorem agrees_commit : Agrees config ren known t t' .commit := by
  obtain ⟨r, u, u', ran, ran', alike'⟩ := alike.commit
  have performed : (perform .commit).run t.1 t.2 = (r.map fun _ => .done, u) := by
    rw [perform, Action.run_bind, ran]
    cases r <;> rfl
  have performed' : (perform .commit).run t'.1 t'.2 = (r.map fun _ => .done, u') := by
    rw [perform, Action.run_bind, ran']
    cases r <;> rfl
  refine agrees_of_unhanded performed performed' ?_ rfl ?_ alike'
  · cases r <;> rfl
  · intro m same
    cases r <;> cases same

theorem agrees_results : Agrees config ren known t t' .results := by
  have read := run_reported (run_entries_never t.1 t.1.ingestor.finalScope alike.resident.never)
  have read' := run_reported (run_entries_never t'.1 t'.1.ingestor.finalScope alike.resident'.never)
  have same : t'.2.store.entries t'.1.ingestor.finalScope = t.2.store.entries t.1.ingestor.finalScope :=
    congrArg SortedMap.toList (alike.same _ (alike.twin.finalScope_mem alike.resident.housed.sites))
  have performed : (perform .results).run t.1 t.2 = (.ok (.rows (rows (t.2.store.entries t.1.ingestor.finalScope))),
      t.1, { t.2 with calls := t.2.calls + 1 }) := by
    simp only [perform, results, Action.run_bind, Action.run_getLocal, read, Action.run_pure]
  have performed' : (perform .results).run t'.1 t'.2 =
      (.ok (.rows (rows (t'.2.store.entries t'.1.ingestor.finalScope))), t'.1, { t'.2 with calls := t'.2.calls + 1 }) := by
    simp only [perform, results, Action.run_bind, Action.run_getLocal, read', Action.run_pure]
  exact agrees_of_unhanded performed performed' (by rw [same]; rfl) rfl (fun _ marker => by cases marker)
    (alike.of_eq rfl rfl rfl rfl)

theorem agrees_lookup (values : List Value) : Agrees config ren known t t' (.lookup values) := by
  obtain ⟨w, plan, store, ran⟩ := run_lookup t.1 alike.resident.never values
  obtain ⟨w', plan', store', ran'⟩ := run_lookup t'.1 alike.resident'.never values
  have entries : t'.2.store.entries t'.1.ingestor.rootScope = t.2.store.entries t.1.ingestor.rootScope :=
    congrArg SortedMap.toList (alike.same _ (alike.twin.rootScope_mem alike.resident.housed.sites))
  have same : found t'.1 t'.2.store values = found t.1 t.2.store values := by
    simp only [found, Store.entriesUnder, alike.name, alike.pipeline, entries]
  have performed : (perform (.lookup values)).run t.1 t.2 = ((found t.1 t.2.store values).map .rows, t.1, w) := by
    rw [perform, Action.run_bind, ran]
    cases found t.1 t.2.store values <;> rfl
  have performed' : (perform (.lookup values)).run t'.1 t'.2 = ((found t.1 t.2.store values).map .rows, t'.1, w') := by
    rw [perform, Action.run_bind, ran', same]
    cases found t.1 t.2.store values <;> rfl
  refine agrees_of_unhanded performed performed' ?_ rfl ?_ (alike.of_eq plan store plan' store')
  · cases found t.1 t.2.store values <;> rfl
  · intro m same
    cases read : found t.1 t.2.store values <;> rw [read] at same <;> cases same

theorem agrees_queued : Agrees config ren known t t' .queued := by
  have same : t'.1.queued = t.1.queued := by rw [queued, queued, Ingestor.queued, Ingestor.queued, alike.twin.queues]
  have performed' : (perform .queued).run t'.1 t'.2 = (.ok (.size t.1.queued), t') := by
    rw [← same]
    rfl
  exact agrees_of_unhanded rfl performed' rfl rfl (fun _ same => by cases same) alike

theorem agrees_record (left : t.2.store.nextMarker < 2 ^ 63) (left' : t'.2.store.nextMarker < 2 ^ 63)
    (same : ren (Int64.ofNat t.2.store.nextMarker) = Int64.ofNat t'.2.store.nextMarker) (doc : Document) :
    Agrees config ren known t t' (.record doc) := by
  obtain ⟨s, s', made, made', alike₁⟩ := alike.appends left left' same doc
  obtain ⟨w, never, store, ran⟩ := run_record t.1 alike.resident.never made
  obtain ⟨w', never', store', ran'⟩ := run_record t'.1 alike.resident'.never made'
  obtain ⟨u, u', queued, queued', -, -, alike₂⟩ := (alike₁ w w' never store never' store').push (ε := Report) .add doc
  have performed : (perform (.record doc)).run t.1 t.2 = (.ok (.marker (Int64.ofNat t.2.store.nextMarker)), u) := by
    rw [perform, Action.run_bind, ran, Action.run_bind, ingest, Ingestor.ingest, queued]
    rfl
  have performed' : (perform (.record doc)).run t'.1 t'.2 = (.ok (.marker (Int64.ofNat t'.2.store.nextMarker)), u') := by
    rw [perform, Action.run_bind, ran', Action.run_bind, ingest, Ingestor.ingest, queued']
    rfl
  refine agrees_of_runs performed performed' ?_ rfl ?_ alike₂
  · rw [← same]
    rfl
  · rintro m ⟨⟩
    exact List.mem_cons_of_mem _ (List.mem_append_right _ (List.mem_singleton_self _))

section Known

variable {m : Int64} (mem : m ∈ -1 :: known)

include mem

theorem agrees_retract : Agrees config ren known t t' (.retract m) := by
  obtain ⟨w, never, store, ran⟩ := run_retract t.1 alike.resident.never m
  obtain ⟨w', never', store', ran'⟩ := run_retract t'.1 alike.resident'.never (ren m)
  have same := alike.get?_log mem
  have alike₁ := alike.opens_log never store never' store'
  rw [Session.log] at same
  -- The markers correspond, so both logs have the document or neither does.
  cases found : (t.2.store.buckets t.log).get? (.numbered m) with
  | none =>
    rw [Session.log] at found
    have performed : (perform (.retract m)).run t.1 t.2 = (.ok (.found false), t.1, w) := by
      rw [perform, Action.run_bind, ran, found]
      rfl
    have performed' : (perform (.retract (ren m))).run t'.1 t'.2 = (.ok (.found false), t'.1, w') := by
      rw [perform, Action.run_bind, ran', same, Session.log, found]
      rfl
    exact agrees_of_unhanded performed performed' rfl rfl (fun _ same => by cases same) alike₁
  | some doc =>
    obtain ⟨u, u', queued, queued', worked, worked', alike₂⟩ := alike₁.push (ε := Report) .retract doc
    obtain ⟨log, here⟩ := alike.resident.log_of_made never store worked
    obtain ⟨log', here'⟩ := alike.resident'.log_of_made never' store' worked'
    have erased := run_reported (run_set_never u.1 t.log alike₂.resident.never (.numbered m) none)
    have erased' := run_reported (run_set_never u'.1 t'.log alike₂.resident'.never (.numbered (ren m)) none)
    rw [Session.log] at found erased erased'
    have performed : (perform (.retract m)).run t.1 t.2 = (.ok (.found true), u.1,
        { u.2 with calls := u.2.calls + 1, store := u.2.store.set t.log (.numbered m) none }) := by
      rw [perform, Action.run_bind, ran, found]
      simp only [Action.run_bind, uningest, Ingestor.uningest, queued, erased]
      rfl
    have performed' : (perform (.retract (ren m))).run t'.1 t'.2 = (.ok (.found true), u'.1,
        { u'.2 with calls := u'.2.calls + 1, store := u'.2.store.set t'.log (.numbered (ren m)) none }) := by
      rw [perform, Action.run_bind, ran', same, Session.log, found]
      simp only [Action.run_bind, uningest, Ingestor.uningest, queued', erased']
      rfl
    refine agrees_of_unhanded performed performed' rfl rfl (fun _ same => by cases same) ?_
    exact alike₂.erases mem (log ▸ here) (log' ▸ here') alike₂.resident.never (log ▸ rfl) alike₂.resident'.never (log' ▸ rfl)

theorem agrees_replay : Agrees config ren known t t' (.replay m) := by
  obtain ⟨w, never, -, store, ran⟩ := run_replaySince t.1 alike.resident.never m
  obtain ⟨w', never', -, store', ran'⟩ := run_replaySince t'.1 alike.resident'.never (ren m)
  obtain ⟨docs, high⟩ := alike.appendedSince_log mem
  obtain ⟨u, u', queued, queued', alike'⟩ := (alike.opens_log never store never' store').ingestAll (ε := Report)
    ((t.2.store.appendedSince t.log m).map Prod.snd)
  have performed : (perform (.replay m)).run t.1 t.2 =
      (.ok (.marker (highWater m (t.2.store.appendedSince t.log m))), u) := by
    rw [Session.log] at queued
    rw [perform, Action.run_bind, ran, Action.run_bind, queued]
    rfl
  have performed' : (perform (.replay (ren m))).run t'.1 t'.2 =
      (.ok (.marker (highWater (ren m) (t'.2.store.appendedSince t'.log (ren m)))), u') := by
    rw [← docs, Session.log] at queued'
    rw [perform, Action.run_bind, ran', Action.run_bind, queued']
    rfl
  refine agrees_of_unhanded performed performed' ?_ rfl ?_ alike'
  · rw [high]
    rfl
  · rintro n ⟨⟩
    exact alike.highWater_mem mem

end Known

end Calls

section Calls

variable (valid : config.validate = .ok ()) (chained : config.chainStore ≠ logName)
  (alike : Alike config ren known t t')

include valid chained alike

theorem agrees_reset : Agrees config ren known t t' .reset := by
  obtain ⟨i, w, ran, opened⟩ := run_reset alike.resident.config valid chained alike.resident.never alike.resident.tree
  obtain ⟨i', w', ran', opened'⟩ :=
    run_reset alike.resident'.config valid chained alike.resident'.never alike.resident'.tree
  have performed : (perform .reset).run t.1 t.2 = (.ok .done, { t.1 with ingestor := i }, w) := by
    rw [perform, Action.run_bind, ran]
    rfl
  have performed' : (perform .reset).run t'.1 t'.2 = (.ok .done, { t'.1 with ingestor := i' }, w') := by
    rw [perform, Action.run_bind, ran']
    rfl
  have renames : Renames ren known w.store.nextMarker w'.store.nextMarker := by
    rw [opened.widened.marker, opened'.widened.marker, Store.nextMarker_deleteChild, Store.nextMarker_deleteChild]
    exact alike.renames
  rw [alike.pipeline] at opened'
  have anew : Alike config ren known ({ t.1 with ingestor := i }, w) ({ t'.1 with ingestor := i' }, w') :=
    alike_of_opened alike.name alike.pipeline opened opened' renames
  exact agrees_of_unhanded performed performed' rfl rfl (fun _ same => by cases same) anew

/-- Calls that pass known markers do the same in sessions that are alike, if a marker that is handed out
is renamed to the one handed out in its place. -/
theorem agrees (c : Call) (passes : ∀ m, c.Passes m → m ∈ -1 :: known)
    (records : ∀ d, c = .record d → t.2.store.nextMarker < 2 ^ 63 ∧ t'.2.store.nextMarker < 2 ^ 63 ∧
      ren (Int64.ofNat t.2.store.nextMarker) = Int64.ofNat t'.2.store.nextMarker) : Agrees config ren known t t' c := by
  cases c with
  | ingest doc => exact alike.agrees_ingest doc
  | uningest doc => exact alike.agrees_uningest doc
  | commit => exact alike.agrees_commit
  | results => exact alike.agrees_results
  | lookup values => exact alike.agrees_lookup values
  | queued => exact alike.agrees_queued
  | record doc =>
    obtain ⟨left, left', same⟩ := records doc rfl
    exact alike.agrees_record left left' same doc
  | retract m => exact alike.agrees_retract (passes m (.inl rfl))
  | replay m => exact alike.agrees_replay (passes m (.inr rfl))
  | reset => exact alike.agrees_reset valid chained

end Calls

end Alike

end Aggregation

end Rollup
