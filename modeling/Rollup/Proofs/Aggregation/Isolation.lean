import Rollup.Proofs.Aggregation.Agreement
import Rollup.Proofs.Aggregation.Homes
import Rollup.Proofs.Aggregation.Resets

/-!
# Isolation

An aggregation answers every call as if it were alone on its engine, whatever is done to aggregations of
other names in between: only the markers of its log are those that the others have left it
(`answers_as_alone`).

The joint run and the lone one go in lockstep (`Beside`).  A call on the aggregation keeps them alike as it
keeps any two sessions, and a call on another one leaves all that is compared alone, since it spares the
territory of the name (`Alike.spared`).
-/

namespace Rollup

open Ingest

namespace Aggregation

open Ingestor Session

/-! ## What a log lists -/

/-- All entries of a log stand under markers. -/
structure Marked (b : SortedMap Key Document) : Prop where
  sorted : b.Sorted
  numbered : ∀ e ∈ b.toList, ∃ m, e.1 = .numbered m

namespace Marked

variable {b : SortedMap Key Document}

theorem empty : Marked .empty := ⟨SortedMap.sorted_empty, fun _ mem => absurd mem List.not_mem_nil⟩

theorem insert (marked : Marked b) (m : Int64) (d : Document) : Marked (b.insert (.numbered m) d) where
  sorted := marked.sorted.insert _ d
  numbered e mem := by
    rcases SortedMap.mem_place mem with rfl | old
    · exact ⟨m, rfl⟩
    · exact marked.numbered e old

theorem erase (marked : Marked b) (key : Key) : Marked (b.erase key) where
  sorted := marked.sorted.erase key
  numbered e mem := marked.numbered e (List.mem_filter.1 mem).1

end Marked

theorem marked_of_opened {config : Config} {pipeline : Pipeline} {s : Store} {i : Ingestor} {w : World}
    (opened : Opened config pipeline s i w) (name : String) :
    Marked (w.store.buckets (Session.log ({ name, pipeline, ingestor := i }, w))) := by
  have unmade : w.store.scopes.length ≤ Session.log ({ name, pipeline, ingestor := i }, w) := opened.logScope_eq.ge
  rw [Store.buckets, Store.scope_of_length_le _ unmade]
  exact .empty

theorem marked_of_does {config : Config} {t t' : Session} (resident : Resident config t) {c : Call}
    {r : Except (Failure Report) Reply} (does : Does config t c r t') (marked : Marked (t.2.store.buckets t.log)) :
    Marked (t'.2.store.buckets t'.log) := by
  have opens {w : World} (store : w.store = t.withLog) : Marked (w.store.buckets (Session.log (t.1, w))) := by
    obtain ⟨log, buckets, -⟩ := log_opened store
    rwa [log, buckets]
  have works {u u' : Session} (resident : Resident config u) (worked : Worked u u')
      (marked : Marked (u.2.store.buckets u.log)) : Marked (u'.2.store.buckets u'.log) := by
    obtain ⟨log, buckets, -⟩ := resident.log_worked worked
    rwa [log, buckets]
  cases does with
  | works plain worked => exact works resident worked marked
  | @recorded d m s' w t' never appended store worked =>
    obtain ⟨-, -, -, log, buckets, -⟩ := log_appended appended store
    have opened := resident.opens_log (w := { w with store := t.withLog }) never rfl
    refine works (opened.of_places never (store ▸ (Store.append?_kept appended).1)) worked ?_
    rw [log, buckets]
    exact marked.insert m d
  | exhausted never none store => exact opens store
  | @dropped m d w w' t₁ never found store worked never' store' =>
    have before := works (resident.opens_log never store) worked (opens store)
    obtain ⟨log, here⟩ := resident.log_of_made never store worked
    have same : Session.log (t₁.1, w') = t₁.log := by
      rw [Session.log, store', logScope]
      exact Store.openChild_congr (t₁.2.store.sameTree_set _ _ _).places _ _
    rw [same, store', log, t₁.2.store.buckets_erase_self here]
    exact (log ▸ before).erase _
  | missing never none store => exact opens store
  | replayed never store worked => exact works (resident.opens_log never store) worked (opens store)
  | reset opened => exact marked_of_opened opened t.1.name

/-- A log lists its documents under their markers. -/
theorem Backlog.run_logged {t : Session} {docs : List (Int64 × Document)} (backlog : Backlog t (-1) docs)
    (marked : Marked (t.2.store.buckets t.log)) (never : t.2.plan = .never) :
    (logged.run t.1 t.2).1 = .ok (docs.map fun e => (.numbered e.1, e.2)) := by
  have ascending : (docs.map fun e => (Key.numbered e.1, e.2)).Pairwise fun a b => compare a.1 b.1 = .lt := by
    rw [List.pairwise_map, ← backlog.since]
    exact (ascending_since backlog.ascending).imp Key.compare_numbered
  -- The scope of the log has these entries, and no others since all of its entries stand under markers.
  have listed : (t.2.store.buckets t.log).toList = docs.map fun e => (.numbered e.1, e.2) := by
    refine SortedMap.eq_of_mem_iff marked.sorted ascending fun e => ⟨fun mem => ?_, fun mem => ?_⟩
    · obtain ⟨m, own⟩ := marked.numbered e mem
      have found := marked.sorted.mem_toList_iff.1 mem
      rw [own, backlog.get?_iff] at found
      exact List.mem_map.2 ⟨(m, e.2), found, Prod.ext own.symm rfl⟩
    · obtain ⟨⟨m, d⟩, logged, rfl⟩ := List.mem_map.1 mem
      exact marked.sorted.mem_toList_iff.2 (backlog.get?_iff.2 logged)
  obtain ⟨-, buckets, -⟩ := log_opened (t := t) (w := { t.2 with store := t.withLog }) rfl
  rw [logged, Action.run_bind, run_openLog t.1 never]
  show ((Access.entries t.log).run t.1 _).1 = _
  rw [run_entries_never t.1 _ (by exact never)]
  exact congrArg Except.ok ((congrArg SortedMap.toList buckets).trans listed)

/-! ## Calls on others -/

theorem Renames.le {ren : Int64 → Int64} {known : List Int64} {next next' later : Nat}
    (renames : Renames ren known next next') (le : next ≤ later) : Renames ren known later next' where
  start := renames.start
  mono := renames.mono
  issued m mem := Int.lt_of_lt_of_le (renames.issued m mem) (Int.ofNat_le.2 le)
  issued' := renames.issued'
  after := renames.after

/-- The log is in the territory, whether it has been made or not. -/
theorem Homed.log_spared {t : Session} {w : World} (homed : Homed t.2.store t.1) (tree : t.2.store.Tree)
    (tree' : w.store.Tree) (spared : t.2.store.Spared w.store t.1.name) :
    w.store.buckets (Session.log (t.1, w)) = t.2.store.buckets t.log ∧
      (w.store.scope (Session.log (t.1, w))).appended = (t.2.store.scope t.log).appended := by
  have root : t.2.store.Territory t.1.name t.1.ingestor.rootScope := ⟨_, homed.root, .self⟩
  have found : w.store.child? t.1.ingestor.rootScope (.named logName) =
      t.2.store.child? t.1.ingestor.rootScope (.named logName) := by
    ext id
    rw [tree'.child?_eq_some, tree.child?_eq_some]
    exact spared.hangs id _ _ root
  rw [Session.log, Session.log, logScope, logScope, Store.openChild, Store.openChild, found]
  cases made : t.2.store.child? t.1.ingestor.rootScope (.named logName) with
  | some log =>
    have territory := root.of_place (Store.place_of_child? made).2
    exact ⟨spared.buckets log territory, spared.appended log territory⟩
  | none =>
    -- It would stand behind all other scopes.
    simp only [Store.buckets, Store.scope_of_length_le _ (Nat.le_refl _)]
    exact ⟨trivial, trivial⟩

/-- Sessions stay alike while the territory of the first is spared. -/
theorem Alike.spared {config : Config} {ren : Int64 → Int64} {known : List Int64} {t t' : Session}
    (alike : Alike config ren known t t') (homed : Homed t.2.store t.1) {w : World} (never : w.plan = .never)
    (tree : w.store.Tree) (spared : t.2.store.Spared w.store t.1.name) : Alike config ren known (t.1, w) t' where
  resident := ⟨never, tree, alike.resident.housed.kept spared.kept, alike.resident.config⟩
  resident' := alike.resident'
  name := alike.name
  pipeline := alike.pipeline
  twin := alike.twin
  same p mem := by
    obtain ⟨site, listed, -, -, own, -⟩ := exists_of_mem_pairs mem
    have territory : t.2.store.Territory t.1.name p.1 := own ▸ ⟨_, homed.root, homed.sites site listed⟩
    rw [alike.same p mem]
    exact (spared.buckets p.1 territory).symm
  renames := alike.renames.le spared.marker
  logged := by
    obtain ⟨docs, listed, backlog, backlog'⟩ := alike.logged
    obtain ⟨buckets, appended⟩ := homed.log_spared alike.resident.tree tree spared
    exact ⟨docs, listed, backlog.of_same buckets appended spared.marker, backlog'⟩

end Aggregation

/-! ## Calls on one of several -/

open Aggregation Session

/-- The call that a deed makes on the i-th aggregation. -/
def Deed.call? (i : Nat) : Deed → Option Aggregation.Call
  | .opens _ _ => none
  | .calls j c => if j = i then some c else none

namespace Engine

/-- A call on the i-th aggregation, with what it returns. -/
def exchange? (e : Engine) (i : Nat) (d : Deed) : Option (Aggregation.Call × Except (Failure Report) Reply) :=
  (d.call? i).bind fun c => e.opened[i]?.map fun qa => (c, Session.reply (qa.2, e.world) c)

/-- The calls on the i-th aggregation, with what they return. -/
def exchanges (e : Engine) (i : Nat) : List Deed → List (Aggregation.Call × Except (Failure Report) Reply)
  | [] => []
  | d :: rest => (e.exchange? i d).toList ++ (e.act d).exchanges i rest

/-- What the calls on the i-th aggregation return. -/
def answers (e : Engine) (i : Nat) (ds : List Deed) : List (Except (Failure Report) Reply) :=
  (e.exchanges i ds).map Prod.snd

/-- The markers that are handed out to the i-th aggregation. -/
def issued (e : Engine) (i : Nat) (ds : List Deed) : List Int64 := (e.exchanges i ds).flatMap fun x => handed x.1 x.2

variable {e : Engine} {i : Nat} {d : Deed}

theorem exchange?_of_none (elsewhere : d.call? i = none) : e.exchange? i d = none := by
  rw [exchange?, elsewhere]
  rfl

theorem exchange?_absent (absent : e.opened[i]? = none) (d : Deed) : e.exchange? i d = none := by
  rw [exchange?, absent]
  cases d.call? i <;> rfl

theorem exchange?_own {q : Query} {a : Aggregation} (opened : e.opened[i]? = some (q, a)) (c : Aggregation.Call) :
    e.exchange? i (.calls i c) = some (c, Session.reply (a, e.world) c) := by
  rw [exchange?, Deed.call?, if_pos rfl, opened]
  rfl

section Exchanges

variable (ds : List Deed)

/-- What is done to others is none of the calls. -/
theorem exchanges_other (elsewhere : d.call? i = none) : e.exchanges i (d :: ds) = (e.act d).exchanges i ds := by
  rw [exchanges, exchange?_of_none elsewhere]
  rfl

theorem exchanges_own {q : Query} {a : Aggregation} (opened : e.opened[i]? = some (q, a)) (c : Aggregation.Call) :
    e.exchanges i (.calls i c :: ds) =
      (c, Session.reply (a, e.world) c) :: (e.act (.calls i c)).exchanges i ds := by
  rw [exchanges, exchange?_own opened]
  rfl

theorem answers_other (elsewhere : d.call? i = none) : e.answers i (d :: ds) = (e.act d).answers i ds :=
  congrArg (List.map Prod.snd) (exchanges_other ds elsewhere)

theorem answers_own {q : Query} {a : Aggregation} (opened : e.opened[i]? = some (q, a)) (c : Aggregation.Call) :
    e.answers i (.calls i c :: ds) = Session.reply (a, e.world) c :: (e.act (.calls i c)).answers i ds :=
  congrArg (List.map Prod.snd) (exchanges_own ds opened c)

theorem issued_other (elsewhere : d.call? i = none) : e.issued i (d :: ds) = (e.act d).issued i ds :=
  congrArg (List.flatMap _) (exchanges_other ds elsewhere)

theorem issued_own {q : Query} {a : Aggregation} (opened : e.opened[i]? = some (q, a)) (c : Aggregation.Call) :
    e.issued i (.calls i c :: ds) =
      handed c (Session.reply (a, e.world) c) ++ (e.act (.calls i c)).issued i ds :=
  congrArg (List.flatMap _) (exchanges_own ds opened c)

end Exchanges

/-- A deed on the i-th aggregation is a call. -/
theorem eq_calls_of_call? {c : Aggregation.Call} (own : d.call? i = some c) : d = .calls i c := by
  cases d with
  | opens name q => cases own
  | calls j c' =>
    rw [Deed.call?] at own
    split at own
    · next same => rw [same, Option.some.inj own]
    · cases own

/-! ### Markers -/

/-- At most one marker is handed out at a time. -/
theorem length_handed_le (c : Aggregation.Call) (r : Except (Failure Report) Reply) : (handed c r).length ≤ 1 := by
  cases c with
  | record d => rcases r with _ | (_ | _ | _ | _ | _) <;> simp [handed]
  | ingest _ | uningest _ | commit | results | lookup _ | queued | retract _ | replay _ | reset => simp [handed]

/-- A deed takes the markers that it hands out from the counter of the store. -/
theorem Sound.nextMarker_act (sound : e.Sound) (i : Nat) (d : Deed) :
    let new := (e.exchange? i d).toList.flatMap fun x => handed x.1 x.2
    e.world.store.nextMarker + new.length ≤ (e.act d).world.store.nextMarker ∧ new.length ≤ 1 ∧
      ∀ m ∈ new, m.toInt = e.world.store.nextMarker := by
  intro new
  have silent (none : e.exchange? i d = none) : new = [] := by
    simp only [new, none]
    rfl
  have effect := sound.effect d
  generalize e.act d = e' at effect ⊢
  cases effect with
  | opened _ _ _ _ _ widened =>
    rw [silent rfl]
    exact ⟨widened.marker.ge, Nat.zero_le 1, fun m mem => absurd mem List.not_mem_nil⟩
  | refused =>
    rw [silent rfl]
    exact ⟨Nat.le_refl _, Nat.zero_le 1, fun m mem => absurd mem List.not_mem_nil⟩
  | @absent j c none =>
    have elsewhere : e.exchange? i (.calls j c) = Option.none := by
      by_cases own : j = i
      · exact exchange?_absent (own ▸ none) _
      · exact exchange?_of_none (if_neg own)
    rw [silent elsewhere]
    exact ⟨Nat.le_refl _, Nat.zero_le 1, fun m mem => absurd mem List.not_mem_nil⟩
  | @called j c q a found valid chained _ resident =>
    obtain ⟨next, first⟩ := nextMarker_of_does (does valid chained resident c)
    rw [next]
    -- A call on another aggregation may take a marker from the counter too, but not for this one.
    by_cases own : j = i
    · subst own
      have same : new = handed c (Session.reply (a, e.world) c) := by
        simp only [new, exchange?_own found, Option.toList_some, List.flatMap_singleton]
      rw [same]
      exact ⟨Nat.le_refl _, length_handed_le _ _, first⟩
    · rw [silent (exchange?_of_none (if_neg own))]
      exact ⟨Nat.le_add_right _ _, Nat.zero_le 1, fun m mem => absurd mem List.not_mem_nil⟩

/-- Markers are handed out in ascending order. -/
theorem Sound.issued_ascending (sound : e.Sound) (i : Nat) (ds : List Deed) :
    (e.issued i ds).Pairwise (·.toInt < ·.toInt) ∧ ∀ m ∈ e.issued i ds, e.world.store.nextMarker ≤ m.toInt := by
  induction ds generalizing e with
  | nil => exact ⟨.nil, fun m mem => absurd mem List.not_mem_nil⟩
  | cons d rest ih =>
    obtain ⟨ascending, after⟩ := ih (sound.act d)
    obtain ⟨next, single, first⟩ := sound.nextMarker_act i d
    rw [issued, exchanges, List.flatMap_append, List.pairwise_append]
    refine ⟨⟨?_, ascending, fun m mem n mem' => ?_⟩, fun m mem => ?_⟩
    · generalize (e.exchange? i d).toList.flatMap (fun x => handed x.1 x.2) = new at single
      match new, single with
      | [], _ => exact .nil
      | [m], _ => exact List.pairwise_singleton _ _
    · have here := List.length_pos_of_mem mem
      have later := after n mem'
      have own := first m mem
      omega
    · rcases List.mem_append.1 mem with new | later
      · exact Int.le_of_eq (first m new).symm
      · have bound := after m later
        omega

/-- What is recorded is handed the next marker. -/
theorem mem_handed_record {config : Config} (valid : config.validate = .ok ()) (chained : config.chainStore ≠ logName)
    {t : Session} (resident : Resident config t) {d : Document} (served : t.reply (.record d) ≠ exhausted) :
    Int64.ofNat t.2.store.nextMarker ∈ handed (.record d) (t.reply (.record d)) := by
  have done := does valid chained resident (.record d)
  generalize t.reply (.record d) = r, t.call (.record d) = t' at done served ⊢
  cases done with
  | works plain => cases plain
  | recorded never appended store worked =>
    obtain ⟨-, rfl, -⟩ := log_appended (w := { t.2 with store := _ }) appended rfl
    exact List.mem_singleton_self _
  | exhausted => exact absurd rfl served

/-! ### Others -/

/-- What is done to aggregations of other names spares the territory of a name, and they stay outside. -/
theorem Sound.spared_act {name : String} (sound : e.Sound) {own : Nat → Prop}
    (others : ∀ j q b, own j → e.opened[j]? = some (q, b) → Foreign e.world.store name b)
    (differ : ∀ q, d ≠ .opens name q) (away : ∀ j c, d = .calls j c → own j) :
    e.world.store.Spared (e.act d).world.store name ∧
      ∀ j q b, own j → (e.act d).opened[j]? = some (q, b) → Foreign (e.act d).world.store name b := by
  have effect := sound.effect d
  generalize e.act d = e' at effect ⊢
  cases effect with
  | @opened other q p j w _ _ _ ran _ _ =>
    have names : other ≠ name := fun same => differ q (same ▸ rfl)
    obtain ⟨spared, foreign⟩ :=
      foreign_of_openIngestor sound.never sound.tree names (openIngestor_of_openNamed ran).2
    refine ⟨spared, fun k q' b mine found => ?_⟩
    rcases Nat.lt_or_ge k e.opened.length with old | new
    · rw [List.getElem?_append_left old] at found
      exact (others k q' b mine found).spared spared
    · rw [List.getElem?_append_right new] at found
      obtain ⟨-, rfl⟩ := Prod.mk.inj (List.mem_singleton.1 (List.mem_of_getElem? found))
      exact foreign
  | @called j c q b found valid chained _ resident =>
    obtain ⟨spared, foreign⟩ := spared_call resident (others j q b (away j c rfl) found) valid chained c
    refine ⟨spared, fun k q' b' mine found' => ?_⟩
    by_cases same : j = k
    · subst same
      rw [List.getElem?_set_self (List.getElem?_eq_some_iff.1 found).1] at found'
      obtain ⟨-, rfl⟩ := Prod.mk.inj (Option.some.inj found')
      exact foreign
    · rw [List.getElem?_set_ne same] at found'
      exact (others k q' b' mine found').spared spared
  | refused | absent => exact ⟨.refl _ _, others⟩

/-- An aggregation that is not called stays as it is. -/
theorem opened_act (here : i < e.opened.length) (away : ∀ j c, d = .calls j c → j ≠ i) :
    (e.act d).opened[i]? = e.opened[i]? := by
  cases d with
  | opens name q =>
    rw [act]
    split
    · exact List.getElem?_append_left here
    · rfl
  | calls j c =>
    rw [act]
    split
    · rfl
    · exact List.getElem?_set_ne (away j c rfl)

/-- While nothing is opened under a name, no scope hangs there. -/
theorem Sound.vacant (sound : e.Sound) (name : String) (free : e.world.store.child? Store.root (.named name) = none)
    (others : ∀ (j : Nat) q b, e.opened[j]? = some (q, b) → Foreign e.world.store name b) {ds : List Deed}
    (differ : ∀ d ∈ ds, ∀ q, d ≠ .opens name q) :
    (e.acts ds).world.store.child? Store.root (.named name) = none ∧
      ∀ (j : Nat) q b, (e.acts ds).opened[j]? = some (q, b) → Foreign (e.acts ds).world.store name b := by
  refine (sound.acts_induction (p := fun e => e.world.store.child? Store.root (.named name) = none ∧
    ∀ (j : Nat) q b, e.opened[j]? = some (q, b) → Foreign e.world.store name b) ⟨free, others⟩ ?_).2
  rintro e d mem sound ⟨free, others⟩
  obtain ⟨spared, others'⟩ := sound.spared_act (fun j q b (_ : True) => others j q b) (differ d mem)
    fun _ _ _ => trivial
  exact ⟨spared.child.trans free, fun j q b => others' j q b trivial⟩

/-! ### In lockstep -/

/-- What may be asked of one of several, when `next` is the counter of the lone run: markers that are passed are
known or were returned before, there is a marker left whenever one is needed, and markers are renamed in the order
in which they are handed out. -/
structure Fair (ren : Int64 → Int64) (known : List Int64) (i next : Nat) (e : Engine) (ds : List Deed) : Prop where
  passes : ∀ front c rest, ds = front ++ .calls i c :: rest → ∀ m, c.Passes m →
    m ∈ -1 :: known ∨ .ok (.marker m) ∈ e.answers i front
  served : exhausted ∉ e.answers i ds
  counted : ∀ k m, (e.issued i ds)[k]? = some m → ren m = Int64.ofNat (next + k)

namespace Fair

variable {ren : Int64 → Int64} {known : List Int64} {next : Nat} {rest : List Deed} {q : Query} {a : Aggregation}
  {c : Aggregation.Call}

theorem other (fair : Fair ren known i next e (d :: rest)) (elsewhere : d.call? i = none) :
    Fair ren known i next (e.act d) rest where
  passes front c back split m pass :=
    answers_other front elsewhere ▸ fair.passes (d :: front) c back (split ▸ rfl) m pass
  served := answers_other rest elsewhere ▸ fair.served
  counted k m found := fair.counted k m (issued_other rest elsewhere ▸ found)

variable (fair : Fair ren known i next e (.calls i c :: rest)) (opened : e.opened[i]? = some (q, a))

include fair

theorem passes_first : ∀ m, c.Passes m → m ∈ -1 :: known := fun m pass =>
  (fair.passes [] c rest rfl m pass).resolve_right List.not_mem_nil

include opened

theorem served_first : Session.reply (a, e.world) c ≠ exhausted := by
  have served := fair.served
  rw [answers_own rest opened] at served
  exact fun full => served (full ▸ List.mem_cons_self)

/-- A call is handed one marker at most, so it is the first of all that are counted. -/
theorem counted_first : ∀ m ∈ handed c (Session.reply (a, e.world) c), ren m = Int64.ofNat next := by
  intro m mem
  obtain ⟨k, found⟩ := List.mem_iff_getElem?.1 mem
  have here := (List.getElem?_eq_some_iff.1 found).1
  obtain rfl : k = 0 := by
    have single := length_handed_le c (Session.reply (a, e.world) c)
    omega
  refine fair.counted 0 m ?_
  rw [issued_own rest opened, List.getElem?_append_left here, found]

/-- After a call its marker is known. -/
theorem later (returned : ∀ m, Session.reply (a, e.world) c = .ok (.marker m) →
      m ∈ -1 :: (known ++ handed c (Session.reply (a, e.world) c))) :
    Fair ren (known ++ handed c (Session.reply (a, e.world) c)) i
      (next + (handed c (Session.reply (a, e.world) c)).length) (e.act (.calls i c)) rest where
  passes := by
    rintro front c' back rfl m pass
    rcases fair.passes (.calls i c :: front) c' back rfl m pass with old | new
    · exact .inl (List.cons_subset_cons _ (List.subset_append_left _ _) old)
    · rw [answers_own front opened] at new
      rcases List.mem_cons.1 new with first | behind
      · exact .inl (returned m first.symm)
      · exact .inr behind
  served full := by
    refine fair.served ?_
    rw [answers_own rest opened]
    exact List.mem_cons_of_mem _ full
  counted k m found := by
    rw [Nat.add_assoc]
    refine fair.counted _ m ?_
    rw [issued_own rest opened, List.getElem?_append_right (Nat.le_add_right _ _), Nat.add_sub_cancel_left]
    exact found

end Fair

/-- An aggregation on an engine goes alike with a session that is alone, and the others have their scopes
elsewhere. -/
structure Beside (ren : Int64 → Int64) (known : List Int64) (i : Nat) (q : Query) (a : Aggregation) (e : Engine)
    (t : Session) : Prop where
  sound : e.Sound
  opened : e.opened[i]? = some (q, a)
  homed : Homed e.world.store a
  alike : Alike e.config ren known (a, e.world) t
  marked : Marked (e.world.store.buckets (Session.log (a, e.world)))
  marked' : Marked (t.2.store.buckets t.log)
  behind : t.2.store.nextMarker ≤ e.world.store.nextMarker
  others : ∀ j q b, j ≠ i → e.opened[j]? = some (q, b) → Foreign e.world.store a.name b

namespace Beside

variable {ren : Int64 → Int64} {known : List Int64} {q : Query} {a : Aggregation} {t : Session}
  (beside : Beside ren known i q a e t)

include beside

/-- What spares the territory of an aggregation leaves it beside the one that is alone. -/
theorem spared {e' : Engine} (sound : e'.Sound) (config : e'.config = e.config) (opened : e'.opened[i]? = e.opened[i]?)
    (spared : e.world.store.Spared e'.world.store a.name)
    (others : ∀ j q b, j ≠ i → e'.opened[j]? = some (q, b) → Foreign e'.world.store a.name b) :
    Beside ren known i q a e' t where
  sound := sound
  opened := opened.trans beside.opened
  homed := by
    have within (id : ScopeId) (inside : e.world.store.Within a.ingestor.rootScope id) :
        e'.world.store.Within a.ingestor.rootScope id := by
      obtain ⟨child, found, within⟩ := spared.territory.2 ⟨_, beside.homed.root, inside⟩
      rw [spared.child, beside.homed.root] at found
      exact Option.some.inj found ▸ within
    exact ⟨spared.child.trans beside.homed.root, fun site mem => within _ (beside.homed.sites site mem)⟩
  alike := config ▸ beside.alike.spared beside.homed sound.never sound.tree spared
  marked := by
    rw [(Homed.log_spared (t := (a, e.world)) beside.homed beside.sound.tree sound.tree spared).1]
    exact beside.marked
  marked' := beside.marked'
  behind := Nat.le_trans beside.behind spared.marker
  others := others

/-- Whatever is done to others leaves it there. -/
theorem other (differ : ∀ q, d ≠ .opens a.name q) (elsewhere : d.call? i = none) :
    Beside ren known i q a (e.act d) t := by
  have away : ∀ j c, d = .calls j c → j ≠ i := by
    rintro j c rfl rfl
    rw [Deed.call?, if_pos rfl] at elsewhere
    cases elsewhere
  obtain ⟨spared, others⟩ := beside.sound.spared_act beside.others differ away
  have here : i < e.opened.length := (List.getElem?_eq_some_iff.1 beside.opened).1
  exact beside.spared (beside.sound.act d) (e.config_acts [d]) (opened_act here away) spared others

/-- A call on the aggregation returns what it does alone. -/
theorem own {c : Aggregation.Call} (passes : ∀ m, c.Passes m → m ∈ -1 :: known)
    (served : Session.reply (a, e.world) c ≠ exhausted)
    (counted : ∀ m ∈ handed c (Session.reply (a, e.world) c), ren m = Int64.ofNat t.2.store.nextMarker) :
    let r := Session.reply (a, e.world) c
    let b := (Session.call (a, e.world) c).1
    b.name = a.name ∧ t.reply (c.rename ren) = r.map (Reply.rename ren) ∧
      (∀ m, r = .ok (.marker m) → m ∈ -1 :: (known ++ handed c r)) ∧
      (t.call (c.rename ren)).2.store.nextMarker = t.2.store.nextMarker + (handed c r).length ∧
      Beside ren (known ++ handed c r) i q b (e.act (.calls i c)) (t.call (c.rename ren)) := by
  intro r b
  have opened := beside.opened
  obtain ⟨valid, chained, -, resident⟩ := beside.sound.session opened
  have done := does valid chained resident c
  have done' := does valid chained beside.alike.resident' (c.rename ren)
  obtain ⟨next, first⟩ := nextMarker_of_does done
  obtain ⟨next', -⟩ := nextMarker_of_does done'
  have agrees := beside.alike.agrees valid chained c passes (by
    rintro d rfl
    have left := lt_of_served resident served
    exact ⟨left, Nat.lt_of_le_of_lt beside.behind left, counted _ (mem_handed_record valid chained resident served)⟩)
  rw [agrees.same, handed_rename, List.length_map] at next'
  obtain ⟨resident', name, -⟩ := resident.of_does done
  -- The scopes of the others are older than the call, and it takes none of these into the territory.
  obtain ⟨homed, old⟩ := homed_call resident beside.homed valid chained c
  have acted : e.act (.calls i c) = { e with
      world := (Session.call (a, e.world) c).2
      opened := e.opened.set i (q, b) } := by rw [Engine.act, opened]
  refine ⟨name, agrees.same, agrees.returned, next', ?_⟩
  constructor
  case sound => exact beside.sound.act _
  case opened =>
    rw [acted]
    exact List.getElem?_set_self (List.getElem?_eq_some_iff.1 opened).1
  case homed =>
    rw [acted]
    exact homed
  case alike =>
    rw [acted]
    exact agrees.alike
  case marked =>
    rw [acted]
    exact marked_of_does resident done beside.marked
  case marked' => exact marked_of_does beside.alike.resident' done' beside.marked'
  case behind =>
    rw [acted, next']
    exact Nat.le_trans (Nat.add_le_add_right beside.behind _) next.ge
  case others =>
    intro j q' b' ne found
    rw [acted] at found ⊢
    rw [List.getElem?_set_ne ne.symm] at found
    have foreign := beside.others j q' b' ne found
    obtain ⟨-, -, -, housed⟩ := beside.sound.session found
    refine ⟨name ▸ foreign.differ, fun site mem => ⟨(foreign.sites site mem).ne_root, fun territory => ?_⟩⟩
    rw [name] at territory
    exact (foreign.sites site mem).foreign (old _ (housed.housed.placed.open_ site mem) territory)

omit beside in
/-- So do all calls on it, with whatever is done to the others in between. -/
theorem run (beside : Beside ren known i q a e t) {ds : List Deed} (differ : ∀ d ∈ ds, ∀ q, d ≠ .opens a.name q)
    (fair : Fair ren known i t.2.store.nextMarker e ds) :
    let cs := (ds.filterMap (Deed.call? i)).map (Call.rename ren)
    t.replies cs = (e.answers i ds).map (Except.map (Reply.rename ren)) ∧
      ∃ known' b, (∀ m ∈ known, m ∈ known') ∧ (∀ m, .ok (.marker m) ∈ e.answers i ds → m ∈ -1 :: known') ∧
        Beside ren known' i q b (e.acts ds) (t.calls cs) := by
  induction ds generalizing known a e t with
  | nil => exact ⟨rfl, known, a, fun m mem => mem, fun m mem => absurd mem List.not_mem_nil, beside⟩
  | cons d rest ih =>
    have differ' : ∀ d ∈ rest, ∀ q, d ≠ .opens a.name q := fun d mem => differ d (List.mem_cons_of_mem _ mem)
    cases own : d.call? i with
    | none =>
      rw [answers_other _ own, List.filterMap_cons_none own]
      exact ih (beside.other (differ d List.mem_cons_self) own) differ' (fair.other own)
    | some c =>
      obtain rfl := eq_calls_of_call? own
      obtain ⟨name, same, returned, next, beside'⟩ :=
        beside.own fair.passes_first (fair.served_first beside.opened) (fair.counted_first beside.opened)
      have fair' := fair.later beside.opened returned
      rw [← next] at fair'
      obtain ⟨later, known', b, more, returned', beside''⟩ := ih beside' (name ▸ differ') fair'
      rw [answers_own rest beside.opened, List.filterMap_cons_some own]
      refine ⟨?_, known', b, fun m mem => more m (List.mem_append_left _ mem), fun m mem => ?_, beside''⟩
      · rw [List.map_cons, List.map_cons, replies, same, later]
      · rcases List.mem_cons.1 mem with first | behind
        · rcases List.mem_cons.1 (returned m first.symm) with start | new
          · exact start ▸ List.mem_cons_self
          · exact List.mem_cons_of_mem _ (more m new)
        · exact returned' m behind

end Beside

/-- A renaming of markers in the order in which they are handed out, from zero on. -/
def ranked (issued : List Int64) (m : Int64) : Int64 := if m ∈ issued then Int64.ofNat (issued.idxOf m) else m

theorem ranked_start {issued : List Int64} (after : ∀ m ∈ issued, 0 ≤ m.toInt) : ranked issued (-1) = -1 :=
  if_neg fun mem => absurd (after (-1) mem) (by decide)

theorem ranked_getElem? {issued : List Int64} (nodup : issued.Nodup) {k : Nat} {m : Int64}
    (found : issued[k]? = some m) : ranked issued m = Int64.ofNat k := by
  obtain ⟨here, rfl⟩ := List.getElem?_eq_some_iff.1 found
  rw [ranked, if_pos (List.getElem_mem here), nodup.idxOf_getElem k here]

/-- An aggregation that is opened under a free name goes beside one that is opened on a new engine. -/
theorem Sound.beside_alone {name : String} (sound : e.Sound)
    (free : e.world.store.child? Store.root (.named name) = none)
    (others : ∀ (j : Nat) q b, e.opened[j]? = some (q, b) → Foreign e.world.store name b) {q : Query} {a : Aggregation}
    (opened : (e.act (.opens name q)).opened[i]? = some (q, a)) (named : a.name = name) {ren : Int64 → Int64}
    (start : ren (-1) = -1) :
    ∃ alone : Session,
      (openNamed e.config name q : Action Report Unit Aggregation).run () {} = (.ok alone.1, (), alone.2) ∧
      alone.2.store.nextMarker = 0 ∧ Beside ren [] i q a (e.act (.opens name q)) alone := by
  have effect := sound.effect (.opens name q)
  have sound' := sound.act (.opens name q)
  generalize e.act (.opens name q) = e' at effect sound' opened ⊢
  cases effect with
  | @opened _ _ p k w valid chained compiled ran =>
    obtain ⟨_, _, same, here⟩ := run_openNamed_free valid chained name compiled () sound.never sound.tree free
    rw [ran] at same
    cases same
    obtain ⟨k', u, ran', fresh⟩ := run_openNamed_free valid chained name compiled () (w := {}) rfl Store.tree_fresh rfl
    have homed : Homed w.store { name, pipeline := p, ingestor := k } :=
      homed_of_openIngestor sound.never sound.tree (openIngestor_of_openNamed ran).2
    -- Those that were opened before have other names, so the one with this name is the new one.
    have last : e.opened.length ≤ i := by
      by_contra before
      rw [List.getElem?_append_left (Nat.lt_of_not_le before)] at opened
      exact (others i q a opened).differ named
    rw [List.getElem?_append_right last] at opened
    obtain ⟨-, rfl⟩ := Prod.mk.inj (List.mem_singleton.1 (List.mem_of_getElem? opened))
    refine ⟨({ name, pipeline := p, ingestor := k' }, u), ran', fresh.widened.marker, ?_⟩
    constructor
    case sound => exact sound'
    case opened => rw [List.getElem?_append_right last, opened]
    case homed => exact homed
    case alike => exact alike_of_opened rfl rfl here fresh (.nil start)
    case marked => exact marked_of_opened here name
    case marked' => exact marked_of_opened fresh name
    case behind => exact fresh.widened.marker.le.trans (Nat.zero_le _)
    case others =>
      intro j q' b ne found
      have old : j < e.opened.length := by
        by_contra beyond
        rw [List.getElem?_append_right (Nat.le_of_not_lt beyond)] at found
        have single := (List.getElem?_eq_some_iff.1 found).1
        have single' := (List.getElem?_eq_some_iff.1 opened).1
        rw [List.length_singleton] at single single'
        omega
      rw [List.getElem?_append_left old] at found
      have foreign := others j q' b found
      obtain ⟨-, -, -, resident⟩ := sound.session found
      refine ⟨foreign.differ, fun site mem => ⟨(foreign.sites site mem).ne_root, fun territory => ?_⟩⟩
      -- All that is in the territory is new, and the scopes of the others are old.
      exact absurd (here.le_of_territory homed territory) (Nat.not_le_of_lt (resident.housed.placed.open_ site mem))
  | refused => exact absurd named (others i q a opened).differ

/-- Aggregations on one engine do not interfere.  While an engine opens one aggregation under a name, and others
under other names before and after, and calls on all of them come in any order, the calls on the one return what
the same calls return on an aggregation of its query that is alone on a new engine.  So do a last look at its
rows, its queue and its log.  Its markers are renamed in their order, since the others take some from the one
counter; it is passed only markers that it has returned, or -1, and there is a marker left whenever it needs one. -/
theorem answers_as_alone {config : Config} {name : String} {q : Query} {before after : List Deed}
    (differ : ∀ d ∈ before ++ after, ∀ q', d ≠ .opens name q') {e : Engine}
    (joint : ({ config } : Engine).acts (before ++ [.opens name q]) = e) {i : Nat} {a : Aggregation}
    (opened : e.opened[i]? = some (q, a)) (named : a.name = name)
    (passes : ∀ front c rest, after = front ++ .calls i c :: rest → ∀ m, c.Passes m →
      m = -1 ∨ .ok (.marker m) ∈ e.answers i front)
    (served : exhausted ∉ e.answers i after) :
    ∃ (alone : Session) (ren : Int64 → Int64),
      (openNamed config name q : Action Report Unit Aggregation).run () {} = (.ok alone.1, (), alone.2) ∧
      ren (-1) = -1 ∧
      (∀ m n, m = -1 ∨ .ok (.marker m) ∈ e.answers i after → n = -1 ∨ .ok (.marker n) ∈ e.answers i after →
        m < n → ren m < ren n) ∧
      let cs := (after.filterMap (Deed.call? i)).map (Call.rename ren)
      alone.replies cs = (e.answers i after).map (Except.map (Reply.rename ren)) ∧
      ∃ b, (e.acts after).opened[i]? = some (q, b) ∧
        let t : Session := (b, (e.acts after).world)
        let t' := alone.calls cs
        (results.run t'.1 t'.2).1 = (results.run t.1 t.2).1 ∧ t'.1.queued = t.1.queued ∧
        ∃ docs : List (Int64 × Document), (logged.run t.1 t.2).1 = .ok (docs.map fun x => (.numbered x.1, x.2)) ∧
          (logged.run t'.1 t'.2).1 = .ok (docs.map fun x => (.numbered (ren x.1), x.2)) := by
  subst named
  have sound := (sound_fresh config).acts before
  obtain ⟨free, others⟩ := (sound_fresh config).vacant a.name rfl
    (fun j q b found => by cases found) fun d mem => differ d (List.mem_append_left _ mem)
  have act : e = (({ config } : Engine).acts before).act (.opens a.name q) := by
    rw [← joint, acts, acts, List.foldl_append]
    rfl
  have configured : (({ config } : Engine).acts before).config = config := config_acts _ before
  -- The markers that the aggregation is handed ascend, so they can be renamed by their rank.
  obtain ⟨ascending, after_start⟩ := (act ▸ sound.act _ : e.Sound).issued_ascending i after
  have nodup : (e.issued i after).Nodup :=
    ascending.imp fun {m n} less (same : m = n) => Int.ne_of_lt less (congrArg _ same)
  have start := ranked_start fun m mem => Int.le_trans (Int.natCast_nonneg _) (after_start m mem)
  obtain ⟨alone, ran, marker, beside⟩ := sound.beside_alone free others (act ▸ opened) rfl start
  rw [← act] at beside
  have fair : Fair (ranked (e.issued i after)) [] i alone.2.store.nextMarker e after := {
    passes := fun front c rest split m pass =>
      (passes front c rest split m pass).imp_left fun first : m = -1 => first ▸ List.mem_cons_self
    served
    counted := fun k m found => by rw [ranked_getElem? nodup found, marker, Nat.zero_add] }
  obtain ⟨same, known, b, -, returned, beside'⟩ :=
    beside.run (fun d mem => differ d (List.mem_append_right _ mem)) fair
  have knows : ∀ m, m = -1 ∨ .ok (.marker m) ∈ e.answers i after → m ∈ -1 :: known := fun m knows =>
    knows.elim (fun first => first ▸ List.mem_cons_self) (returned m)
  have alike := beside'.alike
  refine ⟨alone, ranked (e.issued i after), configured ▸ ran, start,
    fun m n m' n' => alike.renames.mono m (knows m m') n (knows n n'), same, b, beside'.opened, ?_, ?_, ?_⟩
  · rw [run_results alike.resident.never, run_results alike.resident'.never]
    have entries := alike.same _ (alike.twin.finalScope_mem alike.resident.housed.sites)
    exact congrArg (fun entries => Except.ok (rows (SortedMap.toList entries))) entries
  · rw [queued, queued, Ingestor.queued, Ingestor.queued, alike.twin.queues]
  · obtain ⟨docs, -, backlog, backlog'⟩ := alike.logged
    refine ⟨docs, backlog.run_logged beside'.marked alike.resident.never, ?_⟩
    rw [backlog'.run_logged beside'.marked' alike.resident'.never, renamed, List.map_map]
    rfl

/-- An aggregation is used while another one on its engine records and is reset.  What it records has markers 1
and 2, and it retracts the first. -/
theorem answers_as_alone_amid_reset :
    let config : Config := { commitThreshold := 0 }
    let q : Query := .alone (.brokenDownBy "a" "A")
    let x : Document := ⟨[("a", .text "x")]⟩
    let y : Document := ⟨[("a", .text "y")]⟩
    let after : List Deed := [.calls 0 (.record y), .calls 1 (.record x), .calls 0 .reset, .calls 1 .commit,
      .calls 1 (.retract 1), .calls 1 (.record x), .calls 1 .queued]
    let e := ({ config } : Engine).acts ([.opens "m" q] ++ [.opens "n" q])
    ∃ a, e.opened[1]? = some (q, a) ∧ a.name = "n" ∧
      e.answers 1 after = [.ok (.marker 1), .ok .done, .ok (.found true), .ok (.marker 2), .ok (.size 2)] ∧
      ∃ (alone : Session) (ren : Int64 → Int64),
        (openNamed config "n" q : Action Report Unit Aggregation).run () {} = (.ok alone.1, (), alone.2) ∧
        ren 1 < ren 2 ∧
        alone.replies [.record x, .commit, .retract (ren 1), .record x, .queued] =
          [.ok (.marker (ren 1)), .ok .done, .ok (.found true), .ok (.marker (ren 2)), .ok (.size 2)] := by
  intro config q x y after e
  -- The deeds are run; what is left is that none opens the name and that a marker is returned before it is passed.
  have traced : e.opened[1]?.map (fun qa => (qa.1, qa.2.name)) = some (q, "n") := by cbv
  obtain ⟨⟨q', a⟩, opened, same⟩ := Option.map_eq_some_iff.1 traced
  obtain ⟨rfl, name⟩ := Prod.mk.inj same
  have answers : e.answers 1 after =
      [.ok (.marker 1), .ok .done, .ok (.found true), .ok (.marker 2), .ok (.size 2)] := by cbv
  have first : e.answers 1 [.calls 0 (.record y), .calls 1 (.record x), .calls 0 .reset, .calls 1 .commit] =
      [.ok (.marker 1), .ok .done] := by cbv
  have differ : ∀ d ∈ [Deed.opens "m" q] ++ after, ∀ q', d ≠ .opens "n" q' := by
    intro d mem q'
    simp only [after, List.mem_append, List.mem_cons, List.not_mem_nil, or_false] at mem
    rcases mem with rfl | rfl | rfl | rfl | rfl | rfl | rfl | rfl <;> simp
  have passes : ∀ front c rest, after = front ++ .calls 1 c :: rest → ∀ m, c.Passes m →
      m = -1 ∨ .ok (.marker m) ∈ e.answers 1 front := by
    rintro front c rest split m (rfl | rfl)
    · obtain ⟨rfl, rfl, -⟩ := by simpa [after, List.cons_eq_append_iff] using split
      exact .inr (first ▸ List.mem_cons_self)
    · simp [after, List.cons_eq_append_iff] at split
  have served : exhausted ∉ e.answers 1 after := by
    rw [answers]
    simp [exhausted]
  obtain ⟨alone, ren, ran, -, mono, renamed, -⟩ := answers_as_alone differ rfl opened name passes served
  rw [answers] at renamed mono
  refine ⟨a, opened, name, answers, alone, ren, ran, mono 1 2 (.inr ?_) (.inr ?_) (by decide), renamed⟩ <;> simp

end Engine

end Rollup
